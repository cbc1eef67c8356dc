import DurableScript.Node
import DurableScript.Text.Lines

namespace DurableScript

inductive Misplacement where
  | nestedRoot
  | brokenChain
  | emptyPath
  | signalName
  deriving DecidableEq

def Misplacement.reason : Misplacement → String
  | .nestedRoot => "a program root cannot be nested"
  | .brokenChain => "only an if can continue an or chain"
  | .emptyPath => "empty property path"
  | .signalName => "a signal can only be compared with a signal name"

inductive CompileError where
  | notStatement (kind : String) (pos : Option SourcePos)
  | notValue (kind : String) (pos : Option SourcePos)
  | misplaced (kind : String) (why : Misplacement) (pos : Option SourcePos)
  | signalOperator (op : Operator) (pos : Option SourcePos)
  deriving DecidableEq

namespace CompileError

def pos : CompileError → Option SourcePos
  | notStatement _ pos => pos
  | notValue _ pos => pos
  | misplaced _ _ pos => pos
  | signalOperator _ pos => pos

def hint? : CompileError → Option String
  | notStatement .. => some "this node can only be used inside an expression"
  | notValue .. => some "statements cannot be used as values"
  | _ => none

def message (e : CompileError) : String :=
  let what :=
    match e with
    | notStatement kind _ => "cannot compile '" ++ kind ++ "' node"
    | notValue kind _ => "cannot compile '" ++ kind ++ "' node"
    | misplaced kind why _ => kind ++ ": " ++ why.reason
    | signalOperator op _ => "unknown signal operator '" ++ op.symbol ++ "'"
  "compile error: " ++ what ++ SourcePos.suffix e.pos

def render (e : CompileError) (source : String) : String :=
  let marked :=
    match e.pos with
    | none => ""
    | some pos => "\n" ++ pos.underline ((Text.lines source)[pos.line.toNat - 1]?.getD "")
  let hint :=
    match e.hint? with
    | none => ""
    | some hint => "\n  hint: " ++ hint
  e.message ++ marked ++ hint

end CompileError

end DurableScript
