import DurableScript.Machine

namespace DurableScript

namespace RunFault

/-- The faults of a machine that has lost track of its operands or of its code. -/
def isStructural : RunFault → Bool
  | stackUnderflow => true
  | jumpOutOfRange _ _ => true
  | stackCount _ _ => true
  | _ => false

def isOperational : RunFault → Bool
  | variableNotFound _ | functionNotFound _ | objectNotFound _ | methodNotFound _ _ => true
  | propertyNotFound _ | referenceNotFound _ | typeMismatch _ | divisionByZero => true
  | _ => false

theorem isStructural_of_isOperational {fault : RunFault} (h : fault.isOperational = true) :
    fault.isStructural = false := by
  cases fault <;> trivial

end RunFault

@[simp] theorem RunError.fault_locate (error : RunError) (pos : Option SourcePos) :
    (error.locate pos).fault = error.fault := by
  unfold locate
  split <;> rfl

def Operational {α : Type} (result : Except RunFault α) : Prop :=
  ∀ fault, result = .error fault → fault.isOperational = true

namespace Operational

variable {α β : Type}

theorem ok (a : α) : Operational (.ok a) := nofun

theorem error {fault : RunFault} (h : fault.isOperational = true) :
    Operational (.error fault : Except RunFault α) := by
  intro other h'
  cases h'
  exact h

theorem bind {result : Except RunFault α} {next : α → Except RunFault β} (h : Operational result)
    (hnext : ∀ a, Operational (next a)) : Operational (result >>= next) := by
  cases result with
  | error fault => exact error (h fault rfl)
  | ok a => exact hnext a

theorem map {result : Except RunFault α} {f : α → β} (h : Operational result) :
    Operational (result.map f) := by
  cases result with
  | error fault => exact error (h fault rfl)
  | ok a => exact ok (f a)

theorem number (op : Operator) (value : Value) : Operational (value.number op) := by
  unfold Value.number
  split <;> try exact ok _
  · split
    · exact ok _
    · exact error rfl
  · exact error rfl

theorem calculate (operation : Value.Operation) (left right : Value) :
    Operational (Value.calculate operation left right) := by
  refine bind (number _ left) fun x => bind (number _ right) fun y => ?_
  split
  · exact error rfl
  · split
    · split <;> exact ok _
    · exact ok _

theorem remainder (left right : Value) : Operational (Value.remainder left right) := by
  refine bind (number _ left) fun x => bind (number _ right) fun y => ?_
  dsimp only
  split
  · exact error rfl
  · exact ok _

theorem apply (objects : Objects) (op : Operator) (left right : Value) :
    Operational (Value.apply objects op left right) := by
  cases op with
  | add =>
    simp only [Value.apply]
    split
    · exact ok _
    · exact calculate _ left right
  | sub | mul | div => exact calculate _ left right
  | mod => exact remainder left right
  | concat | gt | lt | ge | le | eq | ne | and | or => exact ok _

theorem argument (function : Builtin) (args : List Value) (index : Nat) :
    Operational (function.argument args index) := by
  unfold Builtin.argument
  split
  · exact ok _
  · exact error rfl

theorem items (function : Builtin) (value : Value) : Operational (function.items value) := by
  unfold Builtin.items
  split
  · exact ok _
  · exact ok _
  · exact error rfl

theorem signalNamed (function : Builtin) (args : List Value) :
    Operational (function.signalNamed args) := by
  refine bind (argument function args 0) fun value => ?_
  split
  · exact ok _
  · exact error rfl

theorem run (function : Builtin) (args : List Value) (signals : List String) :
    Operational (function.run args signals) := by
  cases function with
  | arrayCount =>
    exact bind (argument _ args 0) fun value => bind (items _ value) fun _ => ok _
  | arrayGet =>
    refine bind (argument _ args 0) fun array => bind (argument _ args 1) fun index => ?_
    split
    · exact bind (items _ array) fun _ => ok _
    · exact error rfl
  | signalExist | signalNotExist => exact bind (signalNamed _ args) fun _ => ok _

end Operational

namespace Machine

variable {H : Type} {setting : Setting H} {machine next : Machine H}

theorem operational_resolve (machine : Machine H) (ref : ObjectRef Value) :
    Operational (machine.resolve ref) := by
  unfold resolve
  split
  · exact .ok _
  · exact .error rfl

structure SameRun (machine next : Machine H) : Prop where
  execution : next.execution = machine.execution
  status : next.status = machine.status

theorem SameRun.trans {last : Machine H} (h : machine.SameRun next) (h' : next.SameRun last) :
    machine.SameRun last :=
  ⟨h'.execution.trans h.execution, h'.status.trans h.status⟩

theorem SameRun.stack_eq (h : machine.SameRun next) : next.stack = machine.stack :=
  congrArg (Frame.stack ∘ Execution.frame) h.execution

theorem sameRun_resolve {ref : ObjectRef Value} {object : HostObject Value}
    (h : machine.resolve ref = .ok (object, next)) : machine.SameRun next := by
  unfold resolve at h
  split at h
  · cases h
    exact ⟨rfl, rfl⟩
  · cases h

theorem operational_readVariable (machine : Machine H) (name : String) :
    Operational (machine.readVariable name) := by
  unfold readVariable
  split
  · exact .error rfl
  · exact .map (operational_resolve machine _)
  · exact .ok _

theorem sameRun_readVariable {name : String} {value : Value}
    (h : machine.readVariable name = .ok (value, next)) : machine.SameRun next := by
  unfold readVariable at h
  split at h
  · cases h
  · next ref _ =>
    cases hr : machine.resolve ref with
    | error fault =>
      rw [hr] at h
      cases h
    | ok found =>
      rw [hr] at h
      cases h
      exact sameRun_resolve hr
  · cases h
    exact ⟨rfl, rfl⟩

theorem operational_receiver (machine : Machine H) (name : String) :
    Operational (machine.receiver name) := by
  unfold receiver
  split
  · exact .error rfl
  · next fault _ hr => exact .error (operational_readVariable machine name fault hr)
  · exact .ok _
  · exact .map (operational_resolve _ _)
  · exact .error rfl

theorem sameRun_receiver {name typeName : String} {value : Value}
    (h : machine.receiver name = .ok (value, typeName, next)) : machine.SameRun next := by
  unfold receiver at h
  split at h
  · cases h
  · cases h
  · next hr =>
    cases h
    exact sameRun_readVariable hr
  · next ref read hr =>
    cases hf : read.resolve ref with
    | error fault =>
      rw [hf] at h
      cases h
    | ok found =>
      rw [hf] at h
      cases h
      exact (sameRun_readVariable hr).trans (sameRun_resolve hf)
  · cases h

theorem operational_propertyIn (fields : Table Value) (name : String) :
    Operational (propertyIn fields name) := by
  unfold propertyIn
  split
  · exact .ok _
  · exact .error rfl

theorem operational_property (machine : Machine H) (name : String) (object : Value) :
    Operational (machine.property name object).1 := by
  unfold property
  split
  · exact operational_propertyIn _ name
  · split
    · exact operational_propertyIn _ name
    · next hr => exact .error (operational_resolve machine _ _ hr)
  · exact .error rfl

theorem sameRun_property (machine : Machine H) (name : String) (object : Value) :
    machine.SameRun (machine.property name object).2 := by
  unfold property
  split
  · exact ⟨rfl, rfl⟩
  · split
    · next hr => exact sameRun_resolve hr
    · exact ⟨rfl, rfl⟩
  · exact ⟨rfl, rfl⟩

end Machine

end DurableScript
