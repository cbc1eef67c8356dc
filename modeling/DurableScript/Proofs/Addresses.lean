import DurableScript.Program.Binary
import DurableScript.Proofs.Layout
import DurableScript.Proofs.Tables

namespace DurableScript

def Op.counts : Op → List Nat
  | call _ argc restart => [argc, restart]
  | callMethod _ _ argc restart => [argc, restart]
  | jumpUnless target => [target]
  | jump target => [target]
  | callBuiltin _ argc => [argc]
  | expectStack count => [count]
  | _ => []

theorem Op.targets_subset_counts (op : Op) : op.targets ⊆ op.counts := by
  cases op <;> simp [targets, counts]

def CountsWithin (limit : Nat) (code : List Instruction) : Prop :=
  ∀ instruction ∈ code, ∀ n ∈ instruction.op.counts, n ≤ limit

namespace CountsWithin

variable {limit : Nat} {code later : List Instruction}

@[simp] theorem nil : CountsWithin limit [] := List.forall_mem_nil _

@[simp] theorem cons_iff {instruction : Instruction} : CountsWithin limit (instruction :: code) ↔
    (∀ n ∈ instruction.op.counts, n ≤ limit) ∧ CountsWithin limit code := List.forall_mem_cons

@[simp] theorem append_iff :
    CountsWithin limit (code ++ later) ↔ CountsWithin limit code ∧ CountsWithin limit later :=
  List.forall_mem_append

theorem emit_map {α : Type} (pos : Option SourcePos) {op : α → Op} (h : ∀ a, (op a).counts = [])
    (as : List α) : CountsWithin limit (Node.emit pos (as.map op)) := by
  induction as with
  | nil => exact nil
  | cons a as ih => simpa [h] using ih

end CountsWithin

/-- A literal that text can spell: the bits of a NaN tell nothing else. -/
def Op.Spellable : Op → Prop
  | pushValue (.double bits) => ∃ x : Float, bits = x.toBits
  | _ => True

def Spellable (code : List Instruction) : Prop := ∀ instruction ∈ code, instruction.op.Spellable

namespace Spellable

variable {code later : List Instruction}

@[simp] theorem nil : Spellable [] := List.forall_mem_nil _

@[simp] theorem cons_iff {instruction : Instruction} :
    Spellable (instruction :: code) ↔ instruction.op.Spellable ∧ Spellable code := List.forall_mem_cons

@[simp] theorem append_iff : Spellable (code ++ later) ↔ Spellable code ∧ Spellable later :=
  List.forall_mem_append

theorem emit_map {α : Type} (pos : Option SourcePos) {op : α → Op} (h : ∀ a, (op a).Spellable)
    (as : List α) : Spellable (Node.emit pos (as.map op)) := by
  induction as with
  | nil => exact nil
  | cons a as ih => exact cons_iff.2 ⟨h a, ih⟩

end Spellable

namespace Program

/-- Jumps lead to instructions or to the end, and entries to instructions. -/
structure Contained (program : Program) : Prop where
  targets : ∀ instruction ∈ program.code, ∀ target ∈ instruction.op.targets, target ≤ program.size
  entries : ∀ entry ∈ program.procedures, entry.2 < program.size

theorem firstWildJump_eq_none_iff {size index : Nat} {code : List Instruction} :
    firstWildJump size index code = none ↔
      ∀ instruction ∈ code, ∀ target ∈ instruction.op.targets, target ≤ size := by
  induction code generalizing index with
  | nil => simp [firstWildJump]
  | cons instruction rest ih =>
    rw [firstWildJump, List.forall_mem_cons, ← @ih (index + 1)]
    cases hfind : instruction.op.targets.find? fun target => size < target with
    | none =>
      have hall : ∀ target ∈ instruction.op.targets, target ≤ size := by simpa using hfind
      exact (and_iff_right hall).symm
    | some target =>
      have hmem := List.mem_of_find?_eq_some hfind
      have hlt : size < target := by simpa using List.find?_some hfind
      simp only [reduceCtorEq, false_iff, not_and]
      exact fun hall => absurd (hall target hmem) (Nat.not_le.2 hlt)

theorem firstWildEntry_eq_none_iff {size : Nat} {procedures : Table Nat} :
    firstWildEntry size procedures = none ↔ ∀ entry ∈ procedures, entry.2 < size := by
  induction procedures with
  | nil => simp [firstWildEntry]
  | cons entry rest ih =>
    rw [firstWildEntry, List.forall_mem_cons, ← ih]
    split
    · next h => exact ⟨nofun, fun hall => absurd hall.1 (Nat.not_lt.2 h)⟩
    · next h => exact (and_iff_right (Nat.lt_of_not_le h)).symm

theorem firstInvalid?_eq_none_iff (program : Program) :
    program.firstInvalid? = none ↔ program.Contained := by
  rw [firstInvalid?, Option.or_eq_none_iff, firstWildJump_eq_none_iff, firstWildEntry_eq_none_iff]
  simp only [Array.mem_toList_iff]
  exact ⟨fun h => ⟨h.1, h.2⟩, fun h => ⟨h.targets, h.entries⟩⟩

theorem checked_eq_ok_iff {program checked : Program} :
    program.checked = .ok checked ↔ program = checked ∧ program.Contained := by
  rw [← firstInvalid?_eq_none_iff, Program.checked]
  split
  · next h => simp [h]
  · next h => simp [h]

end Program

open Node

variable {start limit : Nat} {code : List Instruction} {entries : List (String × Nat)}

theorem LowersValue.count_le_length {phrase : Phrase} (h : LowersValue phrase start code) :
    phrase.count ≤ code.length := by
  induction h <;> simp_all <;> omega

theorem LowersValue.countsWithin {phrase : Phrase} (h : LowersValue phrase start code)
    (hlimit : start + code.length ≤ limit) : CountsWithin limit code := by
  induction h with
  | literal _ | ident => simp [Op.counts]
  | signal _ _ =>
    have : 1 ≤ limit := by simp at hlimit; omega
    simpa [Op.counts]
  | binary _ _ _ ih₁ ih₂ =>
    simp only [List.length_append, length_emit] at hlimit
    simp [Op.counts, ih₁ (by omega), ih₂ (by omega)]
  | call h ih | methodCall h ih =>
    have hargs := h.count_le_length
    simp only [List.length_append, length_emit, Phrase.count] at hlimit hargs
    simp [Op.counts, ih (by omega)]
    omega
  | group _ ih => exact ih hlimit
  | negate _ ih =>
    rw [List.length_append] at hlimit
    simp [Op.counts, ih (by omega)]
  | path _ =>
    rw [emit_cons, CountsWithin.cons_iff]
    exact ⟨nofun, .emit_map _ (fun _ => rfl) _⟩
  | nil => exact .nil
  | cons _ _ ih₁ ih₂ =>
    rw [List.length_append] at hlimit
    exact CountsWithin.append_iff.2 ⟨ih₁ (by omega), ih₂ (by omega)⟩

theorem Lowers.countsWithin {clause : Clause} (h : Lowers clause start code entries)
    (hlimit : start + code.length ≤ limit) (hexit : ∀ exit ∈ clause.exit?, exit ≤ limit) :
    CountsWithin limit code := by
  induction h with
  | @branch exit? _ _ _ _ _ _ _ _ _ _ exit _ _ _ _ hexit' hfailed hc h₁ h₂ h₃ ih₁ ih₂ ih₃ =>
    have hsize := (Lowers.branch hexit' hfailed hc h₁ h₂ h₃).length_eq
    have hle : exit ≤ limit := by
      cases exit? with
      | none =>
        rw [Clause.size] at hsize
        rwa [hexit', Option.getD_none, ← hsize]
      | some inherited =>
        rw [hexit']
        exact hexit inherited rfl
    simp only [List.length_append, length_emit, List.length_singleton] at hlimit
    have htest := hc.countsWithin (show _ ≤ limit by omega)
    simp [Op.counts, htest, ih₁ (by omega) (by simp), ih₂ (by omega) (by simpa), hle,
      ih₃ (by omega) (by simpa)]
    omega
  | assign hv | retValue hv =>
    rw [List.length_append] at hlimit
    have hcode := hv.countsWithin (show _ ≤ limit by omega)
    simpa [Op.counts]
  | call hv | methodCall hv =>
    have hargs := hv.count_le_length
    simp only [List.length_append, length_emit, Phrase.count] at hlimit hargs
    have hcode := hv.countsWithin (show _ ≤ limit by omega)
    simp [Op.counts, hcode]
    omega
  | stop | nothing | wait | ret => simp [Op.counts]
  | countLoop _ _ htop hafter hs hf hl _ ih =>
    simp only [List.length_append, length_emit, List.length_cons, List.length_nil] at hlimit
    have hstepped := hs.countsWithin (show _ ≤ limit by omega)
    have hinitial := hf.countsWithin (show _ ≤ limit by omega)
    have hlast := hl.countsWithin (show _ ≤ limit by omega)
    simp [Op.counts, hstepped, hinitial, hlast, ih (by omega) (by simp)]
    omega
  | eachLoop _ _ _ htop hafter hv _ ih | whileLoop hafter hv _ ih =>
    simp only [List.length_append, length_emit, List.length_cons, List.length_nil] at hlimit
    have hvalue := hv.countsWithin (show _ ≤ limit by omega)
    simp [Op.counts, hvalue, ih (by omega) (by simp)]
    omega
  | procedure hafter _ ih =>
    simp only [List.length_append, length_emit, List.length_cons, List.length_nil, List.length_map,
      List.length_reverse] at hlimit
    have hparams (pos : Option SourcePos) (names : List String) :
        CountsWithin limit (emit pos (names.map .setVariable)) := .emit_map pos (fun _ => rfl) names
    simp [Op.counts, ih (by omega) (by simp), -List.map_reverse, hparams]
    omega
  | nil => exact .nil
  | cons _ _ ih₁ ih₂ =>
    rw [List.length_append] at hlimit
    exact CountsWithin.append_iff.2 ⟨ih₁ (by omega) nofun, ih₂ (by omega) nofun⟩
  | noElse => exact .nil
  | someElse _ ih => exact ih hlimit hexit
  | noOtherwise => exact .nil
  | someOtherwise _ ih =>
    rw [List.length_append] at hlimit
    have hjump := hexit _ rfl
    simp [Op.counts, ih (by omega) nofun, hjump]

theorem LowersValue.spellable {phrase : Phrase} (h : LowersValue phrase start code) :
    Spellable code := by
  induction h with
  | @literal _ node _ h =>
    cases node with
    | float x =>
      cases h
      exact Spellable.cons_iff.2 ⟨⟨x, rfl⟩, .nil⟩
    | _ => cases h <;> exact Spellable.cons_iff.2 ⟨trivial, .nil⟩
  | path _ => exact Spellable.cons_iff.2 ⟨trivial, .emit_map _ (fun _ => by trivial) _⟩
  | _ => simp_all [Op.Spellable]

theorem Lowers.spellable {clause : Clause} (h : Lowers clause start code entries) :
    Spellable code := by
  have hparams (pos : Option SourcePos) (names : List String) :
      Spellable (emit pos (names.map .setVariable)) := .emit_map pos (fun _ => by trivial) names
  induction h with
  | branch _ _ hc _ _ _ ih₁ ih₂ ih₃ => simp [Op.Spellable, hc.spellable, ih₁, ih₂, ih₃]
  | assign hv | retValue hv | call hv | methodCall hv => simp [Op.Spellable, hv.spellable]
  | countLoop _ _ _ _ hs hf hl _ ih =>
    simp [Op.Spellable, hs.spellable, hf.spellable, hl.spellable, ih]
  | eachLoop _ _ _ _ _ hv _ ih | whileLoop _ hv _ ih => simp [Op.Spellable, hv.spellable, ih]
  | procedure _ _ ih => simp [Op.Spellable, hparams, ih, -List.map_reverse]
  | cons _ _ ih₁ ih₂ => exact Spellable.append_iff.2 ⟨ih₁, ih₂⟩
  | someElse _ ih => exact ih
  | someOtherwise _ ih => simp [Op.Spellable, ih]
  | _ => simp [Op.Spellable]

theorem Lowers.entries_lt {clause : Clause} (h : Lowers clause start code entries) :
    ∀ entry ∈ entries, entry.2 < start + code.length := by
  induction h with
  | branch _ _ _ _ _ _ ih₁ ih₂ ih₃ =>
    simp only [List.length_append, length_emit, List.length_singleton, List.forall_mem_append]
    refine ⟨⟨fun entry hmem => ?_, fun entry hmem => ?_⟩, fun entry hmem => ?_⟩
    · have := ih₁ entry hmem
      omega
    · have := ih₂ entry hmem
      omega
    · have := ih₃ entry hmem
      omega
  | countLoop _ _ _ _ _ _ _ _ ih | eachLoop _ _ _ _ _ _ _ ih | whileLoop _ _ _ ih =>
    intro entry hmem
    have := ih entry hmem
    simp only [List.length_append, length_emit, List.length_cons, List.length_nil]
    omega
  | procedure _ _ ih =>
    simp only [List.length_append, length_emit, List.length_cons, List.length_nil, List.length_map,
      List.length_reverse, List.forall_mem_cons]
    refine ⟨by omega, fun entry hmem => ?_⟩
    have := ih entry hmem
    omega
  | cons _ _ ih₁ ih₂ =>
    simp only [List.length_append, List.forall_mem_append]
    refine ⟨fun entry hmem => ?_, fun entry hmem => ?_⟩
    · have := ih₁ entry hmem
      omega
    · have := ih₂ entry hmem
      omega
  | someElse _ ih => exact ih
  | someOtherwise _ ih =>
    intro entry hmem
    have := ih entry hmem
    rw [List.length_append]
    omega
  | _ => nofun

/-- The numbers in a program, its entries included, are no larger than the program, its procedures
differ in name, and its literals are those of doubles. -/
structure Program.Tidy (program : Program) : Prop where
  counts : CountsWithin program.size program.code.toList
  spellable : Spellable program.code.toList
  entries : ∀ entry ∈ program.procedures, entry.2 < program.size
  distinct : Table.Distinct program.procedures

theorem Program.Tidy.contained {program : Program} (h : program.Tidy) : program.Contained where
  targets instruction hmem target htarget :=
    h.counts instruction (by simpa using hmem) target (instruction.op.targets_subset_counts htarget)
  entries := h.entries

theorem Program.tidy_of_counts (hcounts : CountsWithin code.length code)
    (hspellable : Spellable code) (hentries : ∀ entry ∈ entries, entry.2 < code.length) :
    Program.Tidy ⟨code.toArray, Table.ofPairs entries⟩ where
  counts := by simpa [size] using hcounts
  spellable := hspellable
  entries entry hmem := by simpa [size] using hentries entry (Table.mem_of_mem_ofPairs hmem)
  distinct := Table.distinct_ofPairs entries

theorem Program.tidy_of_compile {tree : Node} {before : List Node} {program : Program}
    (h : tree.compile before = .ok program) : program.Tidy := by
  obtain ⟨code, entries, hlowers, rfl⟩ := Lowers.of_compile h
  have hentries := hlowers.entries_lt
  rw [Nat.zero_add] at hentries
  exact tidy_of_counts (hlowers.countsWithin (by omega) nofun) hlowers.spellable hentries

theorem Program.tidy_of_compileExpression {tree : Node} {before : List Node} {program : Program}
    (h : tree.compileExpression before = .ok program) : program.Tidy := by
  obtain ⟨code, entries, value, hlowers, hvalue, rfl⟩ := Lowers.of_compileExpression h
  refine tidy_of_counts (CountsWithin.append_iff.2 ⟨?_, ?_⟩)
    (Spellable.append_iff.2 ⟨hlowers.spellable, hvalue.spellable⟩) fun entry hmem => ?_
  · exact hlowers.countsWithin (by simp) nofun
  · exact hvalue.countsWithin (by simp)
  · have := hlowers.entries_lt entry hmem
    rw [List.length_append]
    omega

end DurableScript
