import DurableScript.Proofs.Addresses
import DurableScript.Proofs.Effects

namespace DurableScript

/-- Where calls return to, the innermost first: calls that were opened within a program of the given
size lie on top of some of the calls of `origin`. -/
inductive Inherits (size : Nat) (origin : List (Option Nat)) : List (Option Nat) → Prop where
  | kept {returns : List (Option Nat)} : returns <:+ origin → Inherits size origin returns
  | opened {returns : List (Option Nat)} {target : Nat} : target ≤ size →
      Inherits size origin returns → Inherits size origin (some target :: returns)

namespace Inherits

variable {size target : Nat} {origin returns : List (Option Nat)} {returnTo : Option Nat}

theorem tail (h : Inherits size origin (returnTo :: returns)) : Inherits size origin returns := by
  cases h with
  | kept h => exact .kept ((List.suffix_cons _ _).trans h)
  | opened _ h => exact h

theorem suffix_of_lt (h : Inherits size origin (some target :: returns)) (hlt : size < target) :
    some target :: returns <:+ origin := by
  cases h with
  | kept h => exact h
  | opened hle _ => exact absurd hle (Nat.not_le.2 hlt)

end Inherits

namespace Execution

def returns (execution : Execution) : List (Option Nat) := execution.calls.map Frame.returnTo

structure SamePlace (execution other : Execution) : Prop where
  program : execution.program = other.program
  pc : execution.pc = other.pc
  returns : execution.returns = other.returns

/-- The execution stands within a program that jumps nowhere past its end, and so do the callers of
the calls that it has opened itself. -/
structure Confined (size : Nat) (origin : List (Option Nat)) (execution : Execution) : Prop where
  contained : execution.program.Contained
  size_eq : execution.program.size = size
  pc_le : execution.pc ≤ size
  inherits : Inherits size origin execution.returns

variable {size target : Nat} {origin : List (Option Nat)} {execution other : Execution}

theorem SamePlace.trans {last : Execution} (h : execution.SamePlace other)
    (h' : other.SamePlace last) : execution.SamePlace last :=
  ⟨h.program.trans h'.program, h.pc.trans h'.pc, h.returns.trans h'.returns⟩

theorem SamePlace.of_eq (h : execution = other) : execution.SamePlace other :=
  ⟨congrArg _ h, congrArg _ h, congrArg _ h⟩

theorem returns_eq_map_outline (execution : Execution) :
    execution.returns = execution.outline.map Prod.snd := by
  rw [outline, List.map_map]
  rfl

theorem Alike.samePlace (h : execution.Alike other) : execution.SamePlace other where
  program := h.program
  pc := h.pc
  returns := by rw [returns_eq_map_outline, h.outline, returns_eq_map_outline]

theorem Stays.samePlace (h : execution.Stays other) : other.SamePlace execution where
  program := h.program
  pc := h.pc
  returns := by
    unfold returns
    cases hcalls : execution.calls with
    | nil => rw [h.nil hcalls]
    | cons call rest =>
      obtain ⟨⟨call', hcalls', hreturn⟩, -⟩ := h.cons call rest hcalls
      rw [hcalls', List.map_cons, hreturn, List.map_cons]

namespace Confined

variable (h : execution.Confined size origin)

include h

theorem of_samePlace (hs : other.SamePlace execution) : other.Confined size origin :=
  ⟨hs.program ▸ h.contained, hs.program ▸ h.size_eq, hs.pc ▸ h.pc_le, hs.returns ▸ h.inherits⟩

theorem goTo (htarget : target ≤ size) : Confined size origin { execution with pc := target } :=
  ⟨h.contained, h.size_eq, htarget, h.inherits⟩

theorem openCall {call : Frame} (hreturn : call.returnTo = some target) (htarget : target ≤ size) :
    Confined size origin { execution with calls := call :: execution.calls } := by
  refine ⟨h.contained, h.size_eq, h.pc_le, ?_⟩
  rw [returns, List.map_cons, hreturn]
  exact .opened htarget h.inherits

theorem closeCall {call : Frame} {rest : List Frame} (hcalls : execution.calls = call :: rest) :
    Confined size origin { execution with calls := rest } := by
  have hinherits := h.inherits
  rw [returns, hcalls] at hinherits
  exact ⟨h.contained, h.size_eq, h.pc_le, hinherits.tail⟩

end Confined

end Execution

namespace Outcome

variable {H : Type} {P : Execution → Prop} {bad : RunFault → Prop} {machine : Machine H}

structure Keeps (P : Execution → Prop) (bad : RunFault → Prop) (outcome : Outcome H) : Prop where
  execution : P outcome.machine.execution
  fault : ∀ error, outcome.error? = some error → bad error.fault

theorem keeps_ok (h : P machine.execution) : (ok machine).Keeps P bad := ⟨h, nofun⟩

theorem keeps_fail {error : RunError} (h : P machine.execution) (hbad : bad error.fault) :
    (fail error machine).Keeps P bad := by
  refine ⟨h, fun other hother => ?_⟩
  cases hother
  exact hbad

end Outcome

namespace Machine

variable {H : Type} {setting : Setting H} {machine : Machine H} {size : Nat}
  {origin : List (Option Nat)} {bad : RunFault → Prop}

/-- A jump out of the code is that of a return from a call whose return pointer leads there, unless
the provider that is asked says so itself. -/
def Strays (setting : Setting H) (machine : Machine H) (op : Op) (fault : RunFault) : Prop :=
  ∀ target bound, fault = .jumpOutOfRange target bound →
    (∃ hasValue rest, op = .ret hasValue ∧ machine.execution.returns = some target :: rest ∧
      machine.execution.program.size = bound ∧ bound < target) ∨
    ∃ request found error, machine.request? setting op = some (request, found) ∧
      (found.reply setting request).1.outcome = .error error ∧ error.fault = fault

theorem strays_of_plain {op : Op} {fault : RunFault} (h : fault.isStructural = false) :
    machine.Strays setting op fault := by
  rintro target bound rfl
  cases h

theorem Takes.returns_eq {count : Nat} {taken : Machine H} {call : Frame} {rest : List Frame}
    (h : machine.Takes count taken) (hcalls : taken.execution.calls = call :: rest) :
    machine.execution.returns = call.returnTo :: rest.map Frame.returnTo := by
  rw [← h.stays.samePlace.returns, Execution.returns, hcalls, List.map_cons]

theorem keeps_execute (h : machine.execution.Confined size origin) (setting : Setting H) {op : Op}
    {pos : Option SourcePos} (hi : machine.execution.instruction? = some ⟨op, pos⟩) :
    (execute setting machine op).Keeps (Execution.Confined size origin)
      (machine.Strays setting op) := by
  have hlt : machine.execution.pc < size := h.size_eq ▸ (Array.getElem?_eq_some_iff.1 hi).1
  have htargets : ∀ target ∈ op.targets, target ≤ size :=
    h.size_eq ▸ h.contained.targets _ (Array.mem_of_getElem? hi)
  have hentries {name : String} {entry : Nat}
      (hentry : machine.execution.program.entry? name = some entry) : entry ≤ size :=
    h.size_eq ▸ Nat.le_of_lt (h.contained.entries _ (Table.mem_of_find? hentry))
  have hstays {next : Machine H} (hs : machine.execution.Stays next.execution) :
      next.execution.Confined size origin := h.of_samePlace hs.samePlace
  have hadvance {next : Machine H} (hs : machine.execution.Stays next.execution) :
      next.advance.execution.Confined size origin := (hstays hs).goTo (hs.pc ▸ hlt)
  have hopened (argc : Nat) : (machine.entered argc).execution.Confined size origin :=
    (h.of_samePlace (machine.execution.stays_dropOperands argc).samePlace).openCall rfl hlt
  have heffect := effect_execute setting machine op
  generalize execute setting machine op = outcome at heffect ⊢
  cases heffect with
  | pushes value _ _ htaken =>
    exact Outcome.keeps_ok (hadvance (htaken.stays.trans (stays_push _ value)))
  | advances _ _ htaken => exact Outcome.keeps_ok (hadvance htaken.stays)
  | jumps hjump htaken =>
    exact Outcome.keeps_ok ((hstays htaken.stays).goTo
      (htargets _ (Op.mem_targets_of_jump? hjump)))
  | assigns value htaken =>
    exact Outcome.keeps_ok (hadvance (htaken.stays.trans (Execution.stays_assign _ _ value)))
  | stops => exact Outcome.keeps_ok (hadvance (.of_eq rfl))
  | waits => exact Outcome.keeps_ok h
  | enters hentry => exact Outcome.keeps_ok ((hopened _).goTo (hentries hentry))
  | returns value _ htaken hcalls hle =>
    have hclosed := (hstays htaken.stays).closeCall hcalls
    exact Outcome.keeps_ok ((hclosed.of_samePlace (stays_setResult _ value).samePlace).goTo
      (hclosed.size_eq ▸ hle))
  | ends value _ htaken =>
    have hends := hstays htaken.stays
    exact Outcome.keeps_ok ((hends.of_samePlace (stays_setResult _ value).samePlace).goTo
      (Nat.le_of_eq hends.size_eq))
  | answers result hasked =>
    exact Outcome.keeps_ok (hadvance (hasked.stays.trans (stays_setResult _ result)))
  | interrupts result hasked =>
    have hadvanced := hadvance (hasked.stays.trans (stays_setResult _ result))
    exact Outcome.keeps_ok (hadvanced.of_samePlace ⟨rfl, rfl, rfl⟩)
  | repeats hasked =>
    have hmoved := (hstays hasked.stays).goTo (htargets _ hasked.restart_mem_targets)
    exact Outcome.keeps_ok (hmoved.of_samePlace ⟨rfl, rfl, rfl⟩)
  | refuses hasked =>
    refine Outcome.keeps_fail (hstays hasked.stays) fun _ _ _ => ?_
    obtain ⟨found, hr, -, hsaid, -⟩ := hasked
    exact .inr ⟨_, found, _, hr, hsaid, rfl⟩
  | lacks _ hrun =>
    exact Outcome.keeps_fail
      (hstays (.trans (.of_eq hrun.execution) (stays_setStack _ _))) nofun
  | fails _ htaken hoperational =>
    exact Outcome.keeps_fail (hstays htaken.stays)
      (strays_of_plain (RunFault.isStructural_of_isOperational hoperational))
  | miscounts | deepens => exact Outcome.keeps_fail h nofun
  | misses hjump htaken hpast =>
    rw [htaken.stays.program, h.size_eq] at hpast
    exact absurd (htargets _ (Op.mem_targets_of_jump? hjump)) (Nat.not_le.2 hpast)
  | overruns hentry _ hpast =>
    rw [h.size_eq] at hpast
    exact absurd (hentries hentry) (Nat.not_le.2 hpast)
  | strays hasked hpast =>
    rw [hasked.stays.program, h.size_eq] at hpast
    exact absurd (htargets _ hasked.restart_mem_targets) (Nat.not_le.2 hpast)
  | @dangles hasValue _ _ rest _ value _ htaken hcalls hreturn hpast =>
    have hclosed := (hstays htaken.stays).closeCall hcalls
    refine Outcome.keeps_fail (hclosed.of_samePlace (stays_setResult _ value).samePlace) ?_
    rintro _ _ ⟨⟩
    have hreturns := hreturn ▸ htaken.returns_eq hcalls
    exact .inl ⟨hasValue, rest.map Frame.returnTo, rfl, hreturns, htaken.stays.program ▸ rfl, hpast⟩

end Machine

end DurableScript
