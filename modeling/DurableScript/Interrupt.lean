namespace DurableScript

/-- Before the call took effect, so that it is made again on resuming, or after it. -/
inductive InterruptKind where
  | before
  | after
  deriving DecidableEq

namespace InterruptKind

def code : InterruptKind → Nat
  | before => 1
  | after => 2

def ofCode? : Nat → Option InterruptKind
  | 1 => some before
  | 2 => some after
  | _ => none

@[simp] theorem ofCode?_code (kind : InterruptKind) : ofCode? kind.code = some kind := by
  cases kind <;> rfl

end InterruptKind

end DurableScript
