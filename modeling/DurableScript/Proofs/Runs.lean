import DurableScript.Runner

namespace DurableScript

inductive Outcome.Rel {H H' : Type} (P Q : Machine H → Machine H' → Prop) :
    Outcome H → Outcome H' → Prop where
  | ok {machine : Machine H} {other : Machine H'} : P machine other → Rel P Q (.ok machine) (.ok other)
  | fail (error : RunError) {machine : Machine H} {other : Machine H'} :
      Q machine other → Rel P Q (.fail error machine) (.fail error other)

namespace Machine

variable {H : Type} {setting : Setting H} {machine next last : Machine H}

inductive Reaches (setting : Setting H) : Machine H → Machine H → Prop where
  | refl {machine : Machine H} : Reaches setting machine machine
  | step {machine next last : Machine H} {instruction : Instruction} :
      machine.next? = some instruction → machine.step setting instruction = .ok next →
      Reaches setting next last → Reaches setting machine last

namespace Reaches

theorem trans (h : Reaches setting machine next) (h' : Reaches setting next last) :
    Reaches setting machine last := by
  induction h with
  | refl => exact h'
  | step hn hs _ ih => exact .step hn hs (ih h')

theorem single {instruction : Instruction} (hn : machine.next? = some instruction)
    (hs : machine.step setting instruction = .ok next) : Reaches setting machine next :=
  .step hn hs .refl

theorem preserves {P : Machine H → Prop}
    (hstep : ∀ {machine next : Machine H} {instruction : Instruction}, P machine →
      machine.next? = some instruction → machine.step setting instruction = .ok next → P next)
    (h : Reaches setting machine last) (hm : P machine) : P last := by
  induction h with
  | refl => exact hm
  | step hn hs _ ih => exact ih (hstep hm hn hs)

theorem forall_of_step {P : Machine H → Prop} {instruction : Instruction} (hm : P machine)
    (hn : machine.next? = some instruction) (hs : machine.step setting instruction = .ok next)
    (h : ∀ last, Reaches setting next last → P last) :
    ∀ last, Reaches setting machine last → P last := by
  intro last hreaches
  cases hreaches with
  | refl => exact hm
  | step hn' hs' hlast =>
    cases hn.symm.trans hn'
    cases hs.symm.trans hs'
    exact h last hlast

theorem forall_of_done {P : Machine H → Prop} (hm : P machine) (hn : machine.next? = none) :
    ∀ last, Reaches setting machine last → P last := by
  intro last hreaches
  cases hreaches with
  | refl => exact hm
  | step hn' _ _ => cases hn.symm.trans hn'

end Reaches

theorem running_of_next? {instruction : Instruction} (h : machine.next? = some instruction) :
    machine.status.running = true := by
  unfold next? at h
  split at h
  · assumption
  · cases h

theorem instruction?_of_next? {instruction : Instruction} (h : machine.next? = some instruction) :
    machine.execution.instruction? = some instruction := by
  rwa [next?, if_pos (running_of_next? h)] at h

theorem runFor_of_next?_eq_none (h : machine.next? = none) (fuel : Nat) :
    runFor setting fuel machine = some (.ok machine.settle) := by
  rw [runFor, h]

theorem runFor_succ {instruction : Instruction} (h : machine.next? = some instruction)
    (fuel : Nat) : runFor setting (fuel + 1) machine =
      match machine.step setting instruction with
      | .ok next => runFor setting fuel next
      | failed => some failed := by
  rw [runFor]
  cases hs : machine.step setting instruction <;> simp only [h, hs]

theorem Reaches.runFor (h : Reaches setting machine last) :
    ∃ steps, ∀ fuel, runFor setting (fuel + steps) machine = runFor setting fuel last := by
  induction h with
  | refl => exact ⟨0, fun _ => rfl⟩
  | step hn hs _ ih =>
    obtain ⟨steps, ih⟩ := ih
    refine ⟨steps + 1, fun fuel => ?_⟩
    rw [← Nat.add_assoc, runFor_succ hn, hs]
    exact ih fuel

/-- Two systems take the same steps: machines that are related by `P` go on with the same instruction,
to machines that are related by `P` again, or end or fail alike, in machines that are related by `Q`. -/
structure Lockstep {H' : Type} (setting : Setting H) (setting' : Setting H')
    (P Q : Machine H → Machine H' → Prop) : Prop where
  next? : ∀ {machine other}, P machine other → other.next? = machine.next?
  settle : ∀ {machine other}, P machine other → Q machine.settle other.settle
  step : ∀ {machine other instruction}, P machine other → machine.next? = some instruction →
    (machine.step setting instruction).Rel P Q (other.step setting' instruction)

theorem Lockstep.runFor {H' : Type} {setting' : Setting H'} {P Q : Machine H → Machine H' → Prop}
    (h : Lockstep setting setting' P Q) {other : Machine H'} (hrelated : P machine other)
    (fuel : Nat) :
    Option.Rel (Outcome.Rel Q Q) (runFor setting fuel machine) (runFor setting' fuel other) := by
  induction fuel generalizing machine other with
  | zero =>
    unfold Machine.runFor
    rw [h.next? hrelated]
    split
    · exact .some (.ok (h.settle hrelated))
    · exact .none
  | succ fuel ih =>
    unfold Machine.runFor
    rw [h.next? hrelated]
    split
    · exact .some (.ok (h.settle hrelated))
    · next instruction hnext =>
      have hstep := h.step hrelated hnext
      dsimp only
      generalize machine.step setting instruction = outcome at hstep ⊢
      generalize other.step setting' instruction = outcome' at hstep ⊢
      cases hstep with
      | ok hnext => exact ih hnext
      | fail error hfailed => exact .some (.fail error hfailed)

theorem exists_reaches_of_runFor {fuel : Nat} {outcome : Outcome H}
    (h : runFor setting fuel machine = some outcome) :
    ∃ last, Reaches setting machine last ∧ (last.next? = none ∧ outcome = .ok last.settle ∨
      ∃ instruction error failed, last.next? = some instruction ∧
        last.step setting instruction = .fail error failed ∧ outcome = .fail error failed) := by
  induction fuel generalizing machine with
  | zero =>
    cases hn : machine.next? with
    | none =>
      rw [runFor_of_next?_eq_none hn] at h
      exact ⟨machine, .refl, .inl ⟨hn, (Option.some.inj h).symm⟩⟩
    | some instruction =>
      rw [runFor, hn] at h
      cases h
  | succ fuel ih =>
    cases hn : machine.next? with
    | none =>
      rw [runFor_of_next?_eq_none hn] at h
      exact ⟨machine, .refl, .inl ⟨hn, (Option.some.inj h).symm⟩⟩
    | some instruction =>
      rw [runFor_succ hn] at h
      cases hs : machine.step setting instruction with
      | fail error failed =>
        rw [hs] at h
        exact ⟨machine, .refl, .inr ⟨instruction, error, failed, hn, hs, (Option.some.inj h).symm⟩⟩
      | ok next =>
        rw [hs] at h
        obtain ⟨last, hr, hlast⟩ := ih h
        exact ⟨last, .step hn hs hr, hlast⟩

theorem reaches_of_runFor_ok {fuel : Nat} (h : runFor setting fuel machine = some (.ok last)) :
    ∃ paused, Reaches setting machine paused ∧ paused.next? = none ∧ last = paused.settle := by
  obtain ⟨paused, hr, ⟨hn, heq⟩ | ⟨_, _, _, _, _, heq⟩⟩ := exists_reaches_of_runFor h
  · exact ⟨paused, hr, hn, Outcome.ok.inj heq⟩
  · cases heq

theorem reaches_of_runFor_fail {fuel : Nat} {error : RunError} {failed : Machine H}
    (h : runFor setting fuel machine = some (.fail error failed)) :
    ∃ last instruction, Reaches setting machine last ∧ last.next? = some instruction ∧
      last.step setting instruction = .fail error failed := by
  obtain ⟨last, hr, ⟨_, heq⟩ | ⟨instruction, _, _, hn, hs, heq⟩⟩ := exists_reaches_of_runFor h
  · cases heq
  · exact ⟨last, instruction, hr, hn, heq ▸ hs⟩

end Machine

end DurableScript
