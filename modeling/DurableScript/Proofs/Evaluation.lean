import DurableScript.Proofs.HiddenNames
import DurableScript.Proofs.Procedures
import DurableScript.Runner
import Mathlib.Algebra.Group.Nat.Defs

/-!
The meaning of a script, given directly on its tree: expressions and statements are evaluated by
recursion, loop counters are passed along, and a call of a procedure evaluates its body.
-/

namespace DurableScript

/-- The variables of a process, less the hidden ones: of the global frame and of the open calls, the
innermost first. -/
structure Variables where
  globals : Table Value
  locals : List (Table Value)

namespace Variables

def current (vars : Variables) : Table Value :=
  match vars.locals with
  | [] => vars.globals
  | innermost :: _ => innermost

def lookup? (vars : Variables) (name : String) : Option Value :=
  (Table.find? name vars.current).or (Table.find? name vars.globals)

def setLocal (vars : Variables) (name : String) (value : Value) : Variables :=
  match vars.locals with
  | [] => { vars with globals := Table.insert name value vars.globals }
  | innermost :: rest => { vars with locals := Table.insert name value innermost :: rest }

def setGlobal (vars : Variables) (name : String) (value : Value) : Variables :=
  { vars with globals := Table.insert name value vars.globals }

def assign (vars : Variables) (name : String) (value : Value) : Variables :=
  if Table.contains name vars.globals then vars.setGlobal name value else vars.setLocal name value

def write (vars : Variables) : HostWrite → Variables
  | .toFrame name value => vars.setLocal name value
  | .toGlobals name value => vars.setGlobal name value

def ofExecution (execution : Execution) : Variables :=
  ⟨Table.visible execution.globals.vars, execution.calls.map fun call => Table.visible call.vars⟩

end Variables

structure HostCall where
  receiver : Option Value
  name : String
  args : List Value

def HostWrite.name : HostWrite → String
  | toFrame name _ => name
  | toGlobals name _ => name

structure PlainReply where
  writes : List HostWrite
  outcome : Except RunError Value

structure PlainFunctions where
  supports : String → Bool
  answer : String → List Value → Variables → Objects → PlainReply × Objects
  discreet : ∀ name args vars objects, ∀ write ∈ (answer name args vars objects).1.writes,
    isHidden write.name = false

structure PlainMethods where
  supports : String → String → Bool
  answer : Value → String → List Value → Variables → Objects → PlainReply × Objects
  discreet : ∀ object name args vars objects,
    ∀ write ∈ (answer object name args vars objects).1.writes, isHidden write.name = false

namespace PlainReply

def reply (plain : PlainReply) : Reply := ⟨plain.writes, plain.outcome.map .value⟩

end PlainReply

def PlainFunctions.provider (functions : PlainFunctions) : FunctionProvider (List HostCall) where
  supports := functions.supports
  invoke context name args world :=
    let (plain, objects) :=
      functions.answer name args (.ofExecution context.execution) world.objects
    (plain.reply, ⟨objects, world.host ++ [⟨none, name, args⟩]⟩)

def PlainMethods.provider (methods : PlainMethods) : MethodProvider (List HostCall) where
  supports := methods.supports
  invoke context object name args world :=
    let (plain, objects) :=
      methods.answer object name args (.ofExecution context.execution) world.objects
    (plain.reply, ⟨objects, world.host ++ [⟨some object, name, args⟩]⟩)

structure Store where
  vars : Variables
  objects : Objects
  calls : List HostCall

structure Scene where
  procedures : Table Procedure
  functions : List PlainFunctions
  methods : List PlainMethods
  signals : List String

/-- An evaluation that does not end, or that meets what it has no meaning for, has no result. One that
fails keeps its store. -/
abbrev Eval := ExceptT RunError (StateT Store Option)

inductive Flow where
  | next
  | returned (value : Value)

def Flow.result : Flow → Value
  | next => .null
  | returned value => value

namespace Eval

variable {α : Type}

def undefined : Eval α := fun _ => none

def fail (pos : Option SourcePos) (fault : RunFault) : Eval α :=
  throw ((RunError.ofFault fault).locate pos)

def ofExcept (pos : Option SourcePos) : Except RunFault α → Eval α
  | .ok a => pure a
  | .error fault => fail pos fault

def assign (name : String) (value : Value) : Eval Unit :=
  modify fun store => { store with vars := store.vars.assign name value }

def resolve (pos : Option SourcePos) (ref : ObjectRef Value) : Eval (HostObject Value) := do
  let store ← get
  match store.objects.resolve ref with
  | .ok (object, objects) =>
    set { store with objects }
    return object
  | .error id => fail pos (.referenceNotFound id)

def touch (pos : Option SourcePos) : Value → Eval Value
  | .object ref => do
    let _ ← resolve pos ref
    return .object ref
  | value => return value

def read (pos : Option SourcePos) (name : String) : Eval Value := do
  match (← get).vars.lookup? name with
  | none => fail pos (.variableNotFound name)
  | some value => touch pos value

def property (pos : Option SourcePos) (value : Value) (name : String) : Eval Value := do
  match value with
  | .record fields => ofExcept pos (Machine.propertyIn fields name)
  | .object ref =>
    let object ← resolve pos ref
    ofExcept pos (Machine.propertyIn object.properties name)
  | other => fail pos (.typeMismatch ("property access on non-object " ++ other.typeName))

def operate (pos : Option SourcePos) (op : Operator) (left right : Value) : Eval Value := do
  ofExcept pos (Value.apply (← get).objects op left right)

def ask (pos : Option SourcePos) (call : HostCall)
    (answer : Variables → Objects → PlainReply × Objects) : Eval Value := do
  let store ← get
  let (plain, objects) := answer store.vars store.objects
  set (⟨plain.writes.foldl Variables.write store.vars, objects, store.calls ++ [call]⟩ : Store)
  match plain.outcome with
  | .ok value => return value
  | .error error => throw (error.locate pos)

def receiver (pos : Option SourcePos) (name : String) : Eval (Value × String) := do
  match (← get).vars.lookup? name with
  | some (.record fields) => return (.record fields, "record")
  | some (.object ref) =>
    let object ← resolve pos ref
    return (.object ref, object.typeName)
  | _ => fail pos (.objectNotFound name)

def callFunction (scene : Scene) (pos : Option SourcePos) (name : String) (args : List Value) :
    Eval Value :=
  match scene.functions.find? fun functions => functions.supports name with
  | some functions => ask pos ⟨none, name, args⟩ (functions.answer name args)
  | none => fail pos (.functionNotFound name)

def callMethod (scene : Scene) (pos : Option SourcePos) (object name : String)
    (args : List Value) : Eval Value := do
  let (value, typeName) ← receiver pos object
  match scene.methods.find? fun methods => methods.supports typeName name with
  | some methods => ask pos ⟨some value, name, args⟩ (methods.answer value name args)
  | none => fail pos (.methodNotFound name typeName)

def signalComparison (signals : List String) (op : Operator) (right : Node) : Eval Value :=
  let compare (name : String) : Eval Value :=
    match op with
    | .eq => return .bool (signals.contains name)
    | .ne => return .bool (!signals.contains name)
    | _ => undefined
  match right with
  | .ident name _ => compare name
  | .str name _ => compare name
  | _ => undefined

def currentCount (pos : Option SourcePos) (counter : Option String) (current : Value) : Eval Value :=
  match counter with
  | some name => read pos name
  | none => touch pos current

def keep (counter : Option String) (value : Value) : Eval Unit :=
  match counter with
  | some name => assign name value
  | none => return ()

def openCall : Eval Unit :=
  modify fun store => { store with vars := { store.vars with locals := [] :: store.vars.locals } }

def closeCall : Eval Unit :=
  modify fun store => { store with vars := { store.vars with locals := store.vars.locals.tail } }

def bindParams (params : List String) (args : List Value) : Eval Unit :=
  (params.zip args).reverse.forM fun (name, value) => assign name value

variable (scene : Scene)

mutual

def value : Nat → Node → Eval Value
  | 0, _ => undefined
  | fuel + 1, node =>
    match node with
    | .binary op left right pos =>
      if left.isSignal then signalComparison scene.signals op right
      else do
        let x ← value fuel left
        let y ← value fuel right
        operate pos op x y
    | .call name args pos => do call fuel pos name (← arguments fuel args)
    | .methodCall object name args pos => do
      callMethod scene pos object name (← arguments fuel args)
    | .group inner _ => value fuel inner
    | .negate inner _ => return .bool !(← value fuel inner).truthy
    | .path names pos =>
      match names.reverse with
      | [] => undefined
      | object :: properties => do properties.foldlM (property pos) (← read pos object)
    | .ident name pos => read pos name
    | .int n _ => return .int n
    | .float x _ => return .float x
    | .str s _ => return .str s
    | .bool b _ => return .bool b
    | .null _ => return .null
    | _ => undefined

def arguments : Nat → List Node → Eval (List Value)
  | 0, _ => undefined
  | _ + 1, [] => return []
  | fuel + 1, arg :: rest => do
    let later ← arguments fuel rest
    return (← value fuel arg) :: later

def call : Nat → Option SourcePos → String → List Value → Eval Value
  | 0, _, _, _ => undefined
  | fuel + 1, pos, name, args =>
    match Table.find? name scene.procedures with
    | none => callFunction scene pos name args
    | some procedure =>
      if args.length = procedure.params.length then do
        openCall
        bindParams procedure.params args
        let flow ← statements fuel procedure.body
        closeCall
        return flow.result
      else fail procedure.pos (.stackCount procedure.params.length args.length)

def statement : Nat → Node → Eval Flow
  | 0, _ => undefined
  | fuel + 1, node =>
    match node with
    | .assign name expression _ => do
      assign name (← value fuel expression)
      return .next
    | .branch condition body orElse otherwise pos => do
      return (← chain fuel (.branch condition body orElse otherwise pos)).getD .next
    | .countLoop first last step counter body pos => do
      let step ← value fuel (step.getD (.int 1 pos))
      let first ← value fuel first
      keep counter first
      countLoop fuel pos counter last body step first
    | .eachLoop source item body pos => do
      let items ← ofExcept pos (Builtin.items .arrayCount (← touch pos (← value fuel source)))
      -- no list is longer than a machine word can count
      if items.length < 2 ^ 63 then eachLoop fuel item body items else undefined
    | .whileLoop condition body _ => whileLoop fuel condition body
    | .procedure _ _ _ _ => return .next
    | .ret none _ => return .returned .null
    | .ret (some expression) _ => return .returned (← value fuel expression)
    | .nothing _ => return .next
    | .wait all names _ =>
      if WaitRequirement.isMet ⟨all, names⟩ scene.signals then return .next else undefined
    | .call name args pos => do
      let _ ← call fuel pos name (← arguments fuel args)
      return .next
    | .methodCall object name args pos => do
      let _ ← callMethod scene pos object name (← arguments fuel args)
      return .next
    | _ => undefined

def statements : Nat → List Node → Eval Flow
  | 0, _ => undefined
  | _ + 1, [] => return .next
  | fuel + 1, first :: rest => do
    match ← statement fuel first with
    | .next => statements fuel rest
    | returned => return returned

/-- The block of the first branch whose condition holds, or else the last block; none if there is
neither. -/
def chain : Nat → Node → Eval (Option Flow)
  | 0, _ => undefined
  | fuel + 1, .branch condition body orElse otherwise _ => do
    if (← value fuel condition).truthy then return some (← statements fuel body)
    else
      match ← orElseChain fuel orElse with
      | some flow => return some flow
      | none =>
        match otherwise with
        | none => return none
        | some last => return some (← statements fuel last)
  | _ + 1, _ => undefined

def orElseChain : Nat → Option Node → Eval (Option Flow)
  | 0, _ => undefined
  | _ + 1, none => return none
  | fuel + 1, some next => chain fuel next

def whileLoop : Nat → Node → List Node → Eval Flow
  | 0, _, _ => undefined
  | fuel + 1, condition, body => do
    if (← value fuel condition).truthy then
      match ← statements fuel body with
      | .next => whileLoop fuel condition body
      | returned => return returned
    else return .next

def countLoop : Nat → Option SourcePos → Option String → Node → List Node → Value → Value →
    Eval Flow
  | 0, _, _, _, _, _, _ => undefined
  | fuel + 1, pos, counter, last, body, step, current => do
    let now ← currentCount pos counter current
    let limit ← value fuel last
    if (← operate pos .le now limit).truthy then
      match ← statements fuel body with
      | .next =>
        let now ← currentCount pos counter current
        let next ← operate pos .add now (← touch pos step)
        keep counter next
        countLoop fuel pos counter last body step next
      | returned => return returned
    else return .next

def eachLoop : Nat → String → List Node → List Value → Eval Flow
  | 0, _, _, _ => undefined
  | _ + 1, _, _, [] => return .next
  | fuel + 1, item, body, first :: rest => do
    assign item first
    match ← statements fuel body with
    | .next => eachLoop fuel item body rest
    | returned => return returned

end

end Eval

def evaluate (functions : List PlainFunctions) (methods : List PlainMethods)
    (signals : List String) (nodes : List Node) (globals : Table Value) (objects : Objects)
    (fuel : Nat) : Option (Except RunError Flow × Store) :=
  Eval.statements ⟨Node.procedureTable nodes, functions, methods, signals⟩ fuel nodes
    ⟨⟨globals, []⟩, objects, []⟩

end DurableScript
