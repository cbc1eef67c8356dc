namespace DurableScript

structure SourcePos where
  line : UInt32
  column : UInt32
  width : UInt32
  deriving DecidableEq, Inhabited

namespace SourcePos

def describe (pos : SourcePos) : String :=
  "at line " ++ toString pos.line.toNat ++ " position " ++ toString pos.column.toNat

def underline (pos : SourcePos) (sourceLine : String) : String :=
  sourceLine ++ "\n" ++ String.ofList (List.replicate pos.column.toNat ' ') ++
    String.ofList (List.replicate (max pos.width.toNat 1) '^')

def suffix : Option SourcePos → String
  | none => ""
  | some pos => " " ++ pos.describe

end SourcePos

end DurableScript
