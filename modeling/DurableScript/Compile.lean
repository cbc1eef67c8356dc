import DurableScript.CompileError
import DurableScript.Node
import DurableScript.Program

/-!
From script trees to programs. A node becomes a block of code that begins at a given index; jumps
inside a block are computed from the sizes of its parts, so that blocks are put together by
appending.
-/

namespace DurableScript

structure Block where
  code : List Instruction
  entries : List (String × Nat)

namespace Block

def empty : Block := ⟨[], []⟩

def ofCode (code : List Instruction) : Block := ⟨code, []⟩

def append (a b : Block) : Block := ⟨a.code ++ b.code, a.entries ++ b.entries⟩

instance : Append Block := ⟨append⟩

def size (block : Block) : Nat := block.code.length

def toProgram (block : Block) : Program := ⟨block.code.toArray, Table.ofPairs block.entries⟩

end Block

namespace Node

def emit (pos : Option SourcePos) (ops : List Op) : List Instruction := ops.map fun op => ⟨op, pos⟩

mutual

def valueSize : Node → Nat
  | call _ args _ => argumentsSize args + 2
  | methodCall _ _ args _ => argumentsSize args + 2
  | group inner _ => valueSize inner
  | binary _ left right _ => if left.isSignal then 2 else valueSize left + valueSize right + 1
  | negate inner _ => valueSize inner + 1
  | path names _ => names.length
  | _ => 1

def argumentsSize : List Node → Nat
  | [] => 0
  | arg :: rest => argumentsSize rest + valueSize arg

end

def stepSize : Option Node → Nat
  | none => 1
  | some step => step.valueSize

mutual

def statementSize : Node → Nat
  | assign _ value _ => valueSize value + 1
  | branch condition body orElse otherwise _ =>
    valueSize condition + statementsSize body + 2 + orElseSize orElse + otherwiseSize otherwise
  | countLoop first last step _ body _ =>
    stepSize step + valueSize first + valueSize last + statementsSize body + 10
  | eachLoop items _ body _ => valueSize items + statementsSize body + 19
  | whileLoop condition body _ => valueSize condition + statementsSize body + 2
  | procedure _ params body _ => params.length + statementsSize body + 3
  | ret none _ => 1
  | ret (some value) _ => valueSize value + 1
  | call _ args _ => argumentsSize args + 1
  | methodCall _ _ args _ => argumentsSize args + 1
  | _ => 1

def statementsSize : List Node → Nat
  | [] => 0
  | statement :: rest => statementSize statement + statementsSize rest

def orElseSize : Option Node → Nat
  | none => 0
  | some next => statementSize next

def otherwiseSize : Option (List Node) → Nat
  | none => 0
  | some body => statementsSize body + 1

end

def signalTest (op : Operator) (right : Node) (pos : Option SourcePos) :
    Except CompileError (List Instruction) :=
  let test (function : Builtin) : Except CompileError (List Instruction) :=
    match right with
    | ident name _ => .ok (emit pos [.pushValue (.str name), .callBuiltin function 1])
    | str name _ => .ok (emit pos [.pushValue (.str name), .callBuiltin function 1])
    | other => .error (.misplaced other.kindName .signalName other.pos)
  match op with
  | .eq => test .signalExist
  | .ne => test .signalNotExist
  | other => .error (.signalOperator other pos)

def pathCode (names : List String) (pos : Option SourcePos) :
    Except CompileError (List Instruction) :=
  match names.reverse with
  | [] => .error (.misplaced "of access" .emptyPath pos)
  | object :: properties => .ok (emit pos (.pushVariable object :: properties.map .pushProperty))

mutual

def valueCode (start : Nat) : Node → Except CompileError (List Instruction)
  | binary op left right pos =>
    if left.isSignal then signalTest op right pos
    else do
      let first ← valueCode start left
      let second ← valueCode (start + first.length) right
      return first ++ second ++ emit pos [.operate op]
  | int n pos => .ok (emit pos [.pushValue (.int n)])
  | float x pos => .ok (emit pos [.pushValue (.float x)])
  | str s pos => .ok (emit pos [.pushValue (.str s)])
  | bool b pos => .ok (emit pos [.pushValue (.bool b)])
  | null pos => .ok (emit pos [.pushValue .null])
  | ident name pos => .ok (emit pos [.pushVariable name])
  | call name args pos => do
    let pushed ← argumentsCode start args
    return pushed ++ emit pos [.call name args.length start, .pushResult]
  | methodCall object name args pos => do
    let pushed ← argumentsCode start args
    return pushed ++ emit pos [.callMethod object name args.length start, .pushResult]
  | group inner _ => valueCode start inner
  | negate inner pos => do
    let code ← valueCode start inner
    return code ++ emit pos [.invert]
  | path names pos => pathCode names pos
  | other => .error (.notValue other.kindName other.pos)

/-- Arguments are pushed from the last to the first, so that the first ends on top. -/
def argumentsCode (start : Nat) : List Node → Except CompileError (List Instruction)
  | [] => .ok []
  | arg :: rest => do
    let later ← argumentsCode start rest
    let code ← valueCode (start + later.length) arg
    return later ++ code

end

/-- Hidden loop variables bear the index at which the code of their loop begins. -/
def loopVariable (start : Nat) (role : String) : String := "_l/" ++ toString start ++ "/" ++ role

def stepCode (start : Nat) (pos : Option SourcePos) :
    Option Node → Except CompileError (List Instruction)
  | none => .ok (emit pos [.pushValue (.int 1)])
  | some step => step.valueCode start

def resultCode (start : Nat) (pos : Option SourcePos) :
    Option Node → Except CompileError (List Instruction)
  | none => .ok (emit pos [.ret false])
  | some result => do
    let code ← result.valueCode start
    return code ++ emit pos [.ret true]

mutual

/-- The code of a statement. Inside an `or` chain `exit?` is the end of the whole chain, where a
branch that was taken leaves to, and only a branch may stand there. -/
def statementCode (exit? : Option Nat) (start : Nat) : Node → Except CompileError Block
  | branch condition body orElse otherwise pos => do
    let exit := exit?.getD (start + statementSize (branch condition body orElse otherwise pos))
    let test ← condition.valueCode start
    let taken ← statementsCode (start + test.length + 1) body
    let failed := start + test.length + 1 + taken.size + 1
    let next ← orElseCode exit failed orElse
    let last ← otherwiseCode exit (failed + next.size) pos otherwise
    return .ofCode (test ++ emit pos [.jumpUnless failed]) ++ taken ++
      .ofCode (emit pos [.jump exit]) ++ next ++ last
  | other =>
    if exit?.isSome then .error (.misplaced other.kindName .brokenChain other.pos)
    else
      match other with
      | assign name expression pos => do
        let code ← expression.valueCode start
        return .ofCode (code ++ emit pos [.setVariable name])
      | call name args pos => do
        let pushed ← argumentsCode start args
        return .ofCode (pushed ++ emit pos [.call name args.length start])
      | methodCall object name args pos => do
        let pushed ← argumentsCode start args
        return .ofCode (pushed ++ emit pos [.callMethod object name args.length start])
      | stop pos => .ok (.ofCode (emit pos [.stop]))
      | nothing pos => .ok (.ofCode (emit pos [.nop]))
      | wait all names pos => .ok (.ofCode (emit pos [.wait all names]))
      | ret result pos => return .ofCode (← resultCode start pos result)
      | countLoop first last step counter body pos => do
        let stepName := loopVariable start "s"
        let counterName := counter.getD (loopVariable start "i")
        let stepped ← stepCode start pos step
        let initial ← first.valueCode (start + stepped.length + 1)
        let top := start + stepped.length + 1 + initial.length + 1
        let limit ← last.valueCode (top + 1)
        let inner ← statementsCode (top + limit.length + 3) body
        let after := top + limit.length + 3 + inner.size + 5
        return .ofCode (stepped ++ emit pos [.setVariable stepName] ++
            initial ++ emit pos [.setVariable counterName, .pushVariable counterName] ++
            limit ++ emit pos [.operate .le, .jumpUnless after]) ++
          inner ++
          .ofCode (emit pos [.pushVariable counterName, .pushVariable stepName, .operate .add,
            .setVariable counterName, .jump top])
      | eachLoop items item body pos => do
        let array := loopVariable start "a"
        let index := loopVariable start "i"
        let count := loopVariable start "c"
        let source ← items.valueCode start
        let top := start + source.length + 6
        let inner ← statementsCode (top + 8) body
        let after := top + 8 + inner.size + 5
        return .ofCode (source ++ emit pos [.setVariable array, .pushValue (.int 0),
            .setVariable index, .pushVariable array, .callBuiltin .arrayCount 1,
            .setVariable count, .pushVariable index, .pushVariable count, .operate .lt,
            .jumpUnless after, .pushVariable index, .pushVariable array,
            .callBuiltin .arrayGet 2, .setVariable item]) ++
          inner ++
          .ofCode (emit pos [.pushValue (.int 1), .pushVariable index, .operate .add,
            .setVariable index, .jump top])
      | whileLoop condition body pos => do
        let test ← condition.valueCode start
        let inner ← statementsCode (start + test.length + 1) body
        let after := start + test.length + 1 + inner.size + 1
        return .ofCode (test ++ emit pos [.jumpUnless after]) ++ inner ++
          .ofCode (emit pos [.jump start])
      | procedure name params body pos => do
        let inner ← statementsCode (start + params.length + 2) body
        let after := start + params.length + 2 + inner.size + 1
        return ⟨emit pos (.jump after :: .expectStack params.length ::
            params.reverse.map .setVariable), [(name, start + 1)]⟩ ++ inner ++
          .ofCode (emit pos [.ret false])
      | root _ pos => .error (.misplaced "root" .nestedRoot pos)
      | other => .error (.notStatement other.kindName other.pos)

def statementsCode (start : Nat) : List Node → Except CompileError Block
  | [] => .ok .empty
  | first :: rest => do
    let block ← statementCode none start first
    let later ← statementsCode (start + block.size) rest
    return block ++ later

def orElseCode (exit start : Nat) : Option Node → Except CompileError Block
  | none => .ok .empty
  | some next => statementCode (some exit) start next

def otherwiseCode (exit start : Nat) (pos : Option SourcePos) :
    Option (List Node) → Except CompileError Block
  | none => .ok .empty
  | some body => do
    let block ← statementsCode start body
    return block ++ .ofCode (emit pos [.jump exit])

end

def topLevel : Node → List Node
  | root body _ => body
  | other => [other]

def compile (tree : Node) (before : List Node) : Except CompileError Program := do
  let first ← statementsCode 0 before
  let rest ← statementsCode first.size tree.topLevel
  return (first ++ rest).toProgram

def compileExpression (tree : Node) (before : List Node) : Except CompileError Program := do
  let first ← statementsCode 0 before
  let code ← tree.valueCode first.size
  return (first ++ .ofCode code).toProgram

end Node

end DurableScript
