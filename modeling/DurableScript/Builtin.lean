import DurableScript.RunError
import DurableScript.Value

namespace DurableScript

inductive Builtin where
  | arrayCount
  | arrayGet
  | signalExist
  | signalNotExist
  deriving DecidableEq

namespace Builtin

def all : List Builtin := [arrayCount, arrayGet, signalExist, signalNotExist]

def name : Builtin → String
  | arrayCount => "array_count"
  | arrayGet => "array_get"
  | signalExist => "signal_exist"
  | signalNotExist => "signal_not_exist"

def ofName? : String → Option Builtin
  | "array_count" => some arrayCount
  | "array_get" => some arrayGet
  | "signal_exist" => some signalExist
  | "signal_not_exist" => some signalNotExist
  | _ => none

@[simp] theorem ofName?_name (f : Builtin) : ofName? f.name = some f := by cases f <;> rfl

def argument (function : Builtin) (args : List Value) (index : Nat) : Except RunFault Value :=
  match args[index]? with
  | some value => .ok value
  | none =>
    .error (.typeMismatch (function.name ++ " expects at least " ++ toString (index + 1) ++
      " argument(s), got " ++ toString args.length))

def mismatch {α : Type} (function : Builtin) (wanted : String) (found : Value) :
    Except RunFault α :=
  .error (.typeMismatch
    (function.name ++ " expects a " ++ wanted ++ ", got " ++ found.typeName))

def items (function : Builtin) : Value → Except RunFault (List Value)
  | .list items => .ok items
  | .record fields => .ok (fields.map Prod.snd)
  | other => function.mismatch "list" other

def signalNamed (function : Builtin) (args : List Value) : Except RunFault String := do
  match ← function.argument args 0 with
  | .str name => .ok name
  | other => function.mismatch "signal name" other

def run (function : Builtin) (args : List Value) (signals : List String) : Except RunFault Value :=
  match function with
  | arrayCount => do
    let items ← arrayCount.items (← arrayCount.argument args 0)
    return .int (Int64.ofNat items.length)
  | arrayGet => do
    let array ← arrayGet.argument args 0
    match ← arrayGet.argument args 1 with
    | .int n =>
      let items ← arrayGet.items array
      return if n.toInt < 0 then .null else (items[n.toInt.toNat]?).getD .null
    | other => arrayGet.mismatch "int index" other
  | signalExist => return .bool (signals.contains (← signalExist.signalNamed args))
  | signalNotExist => return .bool (!signals.contains (← signalNotExist.signalNamed args))

end Builtin

end DurableScript
