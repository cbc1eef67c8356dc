import DurableScript.Compile

/-!
Lowering as a relation: one rule for each form that the compiler accepts, with the code of the parts
as premises. What holds of all compiled code is shown by induction on these rules.
-/

namespace DurableScript

theorem Except.bind_eq_ok {ε α β : Type} {x : Except ε α} {f : α → Except ε β} {b : β} :
    x >>= f = .ok b ↔ ∃ a, x = .ok a ∧ f a = .ok b := by
  cases x with
  | error e => exact ⟨nofun, fun ⟨_, h, _⟩ => nomatch h⟩
  | ok a => exact ⟨fun h => ⟨a, rfl, h⟩, fun ⟨_, h, hf⟩ => by cases h; exact hf⟩

namespace Block

@[simp] theorem append_code (a b : Block) : (a ++ b).code = a.code ++ b.code := rfl

@[simp] theorem append_entries (a b : Block) : (a ++ b).entries = a.entries ++ b.entries := rfl

@[simp] theorem ofCode_code (code : List Instruction) : (ofCode code).code = code := rfl

@[simp] theorem ofCode_entries (code : List Instruction) : (ofCode code).entries = [] := rfl

@[simp] theorem empty_code : empty.code = [] := rfl

@[simp] theorem empty_entries : empty.entries = [] := rfl

@[simp] theorem size_append (a b : Block) : (a ++ b).size = a.size + b.size := by simp [size]

@[simp] theorem size_ofCode (code : List Instruction) : (ofCode code).size = code.length := rfl

end Block

namespace Node

@[simp] theorem emit_nil (pos : Option SourcePos) : emit pos [] = [] := rfl

@[simp] theorem emit_cons (pos : Option SourcePos) (op : Op) (ops : List Op) :
    emit pos (op :: ops) = ⟨op, pos⟩ :: emit pos ops := rfl

@[simp] theorem length_emit (pos : Option SourcePos) (ops : List Op) :
    (emit pos ops).length = ops.length := by simp [emit]

def literal? : Node → Option Literal
  | int n _ => some (.int n)
  | float x _ => some (.float x)
  | str s _ => some (.str s)
  | bool b _ => some (.bool b)
  | null _ => some .null
  | _ => none

def signalQuery? : Operator → Node → Option (Builtin × String)
  | .eq, ident name _ => some (.signalExist, name)
  | .eq, str name _ => some (.signalExist, name)
  | .ne, ident name _ => some (.signalNotExist, name)
  | .ne, str name _ => some (.signalNotExist, name)
  | _, _ => none

end Node

inductive Phrase where
  | value (node : Node)
  | arguments (args : List Node)

open Node in
inductive LowersValue : Phrase → Nat → List Instruction → Prop where
  | literal {start : Nat} {node : Node} {literal : Literal} : node.literal? = some literal →
      LowersValue (.value node) start (emit node.pos [.pushValue literal])
  | ident {start : Nat} {name : String} {pos : Option SourcePos} :
      LowersValue (.value (.ident name pos)) start (emit pos [.pushVariable name])
  | signal {start : Nat} {op : Operator} {left right : Node} {pos : Option SourcePos}
      {function : Builtin} {name : String} : left.isSignal = true →
      signalQuery? op right = some (function, name) →
      LowersValue (.value (.binary op left right pos)) start
        (emit pos [.pushValue (.str name), .callBuiltin function 1])
  | binary {start : Nat} {op : Operator} {left right : Node} {pos : Option SourcePos}
      {first second : List Instruction} : left.isSignal = false →
      LowersValue (.value left) start first →
      LowersValue (.value right) (start + first.length) second →
      LowersValue (.value (.binary op left right pos)) start
        (first ++ second ++ emit pos [.operate op])
  | call {start : Nat} {name : String} {args : List Node} {pos : Option SourcePos}
      {pushed : List Instruction} : LowersValue (.arguments args) start pushed →
      LowersValue (.value (.call name args pos)) start
        (pushed ++ emit pos [.call name args.length start, .pushResult])
  | methodCall {start : Nat} {object name : String} {args : List Node} {pos : Option SourcePos}
      {pushed : List Instruction} : LowersValue (.arguments args) start pushed →
      LowersValue (.value (.methodCall object name args pos)) start
        (pushed ++ emit pos [.callMethod object name args.length start, .pushResult])
  | group {start : Nat} {inner : Node} {pos : Option SourcePos} {code : List Instruction} :
      LowersValue (.value inner) start code → LowersValue (.value (.group inner pos)) start code
  | negate {start : Nat} {inner : Node} {pos : Option SourcePos} {code : List Instruction} :
      LowersValue (.value inner) start code →
      LowersValue (.value (.negate inner pos)) start (code ++ emit pos [.invert])
  | path {start : Nat} {names properties : List String} {object : String}
      {pos : Option SourcePos} : names.reverse = object :: properties →
      LowersValue (.value (.path names pos)) start
        (emit pos (.pushVariable object :: properties.map .pushProperty))
  | nil {start : Nat} : LowersValue (.arguments []) start []
  | cons {start : Nat} {arg : Node} {rest : List Node} {later code : List Instruction} :
      LowersValue (.arguments rest) start later →
      LowersValue (.value arg) (start + later.length) code →
      LowersValue (.arguments (arg :: rest)) start (later ++ code)

namespace LowersValue

open Node

theorem of_signalTest {start : Nat} {op : Operator} {left right : Node} {pos : Option SourcePos}
    {code : List Instruction} (hl : left.isSignal = true)
    (h : signalTest op right pos = .ok code) :
    LowersValue (.value (.binary op left right pos)) start code := by
  unfold signalTest at h
  split at h <;> try contradiction
  all_goals
    split at h <;> try contradiction
    all_goals
      cases h
      exact .signal hl rfl

theorem of_pathCode {start : Nat} {names : List String} {pos : Option SourcePos}
    {code : List Instruction} (h : pathCode names pos = .ok code) :
    LowersValue (.value (.path names pos)) start code := by
  unfold pathCode at h
  split at h
  · contradiction
  · cases h
    exact .path ‹_›

mutual

theorem of_valueCode : (node : Node) → (start : Nat) → (code : List Instruction) →
    valueCode start node = .ok code → LowersValue (.value node) start code
  | .binary op left right pos, start, code, h => by
    simp only [valueCode] at h
    split at h
    · next hl => exact of_signalTest hl h
    · next hl =>
      simp only [Except.bind_eq_ok] at h
      obtain ⟨first, h₁, second, h₂, h₃⟩ := h
      cases h₃
      exact .binary (by simpa using hl) (of_valueCode left start first h₁)
        (of_valueCode right _ second h₂)
  | .call name args pos, start, code, h | .methodCall object name args pos, start, code, h => by
    simp only [valueCode, Except.bind_eq_ok] at h
    obtain ⟨pushed, h₁, h₂⟩ := h
    cases h₂
    constructor
    exact of_argumentsCode args start pushed h₁
  | .group inner pos, start, code, h => by
    simp only [valueCode] at h
    exact .group (of_valueCode inner start code h)
  | .negate inner pos, start, code, h => by
    simp only [valueCode, Except.bind_eq_ok] at h
    obtain ⟨inside, h₁, h₂⟩ := h
    cases h₂
    exact .negate (of_valueCode inner start inside h₁)
  | .path names pos, start, code, h => of_pathCode (by simpa only [valueCode] using h)
  | .ident name pos, start, code, h => by
    simp only [valueCode] at h
    cases h
    exact .ident
  | .int n pos, start, code, h | .float x pos, start, code, h | .str s pos, start, code, h
  | .bool b pos, start, code, h | .null pos, start, code, h => by
    simp only [valueCode] at h
    cases h
    exact .literal rfl
  | .root .., start, code, h | .assign .., start, code, h | .branch .., start, code, h
  | .countLoop .., start, code, h | .eachLoop .., start, code, h | .whileLoop .., start, code, h
  | .procedure .., start, code, h | .ret .., start, code, h | .stop .., start, code, h
  | .nothing .., start, code, h | .wait .., start, code, h => by
    simp only [valueCode] at h
    contradiction

theorem of_argumentsCode : (args : List Node) → (start : Nat) → (code : List Instruction) →
    argumentsCode start args = .ok code → LowersValue (.arguments args) start code
  | [], start, code, h => by
    simp only [argumentsCode] at h
    cases h
    exact .nil
  | arg :: rest, start, code, h => by
    simp only [argumentsCode, Except.bind_eq_ok] at h
    obtain ⟨later, h₁, first, h₂, h₃⟩ := h
    cases h₃
    exact .cons (of_argumentsCode rest start later h₁) (of_valueCode arg _ first h₂)

end

end LowersValue

/-- What is carried out. Inside an `or` chain `exit?` is where a branch that was taken leaves to. -/
inductive Clause where
  | one (exit? : Option Nat) (node : Node)
  | many (nodes : List Node)
  | orElse (exit : Nat) (next : Option Node)
  | otherwise (exit : Nat) (pos : Option SourcePos) (last : Option (List Node))

open Node in
/-- The rules come with the procedures that are declared in the code. -/
inductive Lowers : Clause → Nat → List Instruction → List (String × Nat) → Prop where
  | branch {exit? orElse otherwise pos start condition body test taken next last}
      {exit failed : Nat}
      {takenEntries nextEntries lastEntries : List (String × Nat)} :
      exit = exit?.getD (start + statementSize (.branch condition body orElse otherwise pos)) →
      failed = start + test.length + 1 + taken.length + 1 →
      LowersValue (.value condition) start test →
      Lowers (.many body) (start + test.length + 1) taken takenEntries →
      Lowers (.orElse exit orElse) failed next nextEntries →
      Lowers (.otherwise exit pos otherwise) (failed + next.length) last lastEntries →
      Lowers (.one exit? (.branch condition body orElse otherwise pos)) start
        (test ++ emit pos [.jumpUnless failed] ++ taken ++ emit pos [.jump exit] ++ next ++ last)
        (takenEntries ++ nextEntries ++ lastEntries)
  | assign {start name value pos code} : LowersValue (.value value) start code →
      Lowers (.one none (.assign name value pos)) start (code ++ emit pos [.setVariable name]) []
  | call {start name args pos pushed} : LowersValue (.arguments args) start pushed →
      Lowers (.one none (.call name args pos)) start
        (pushed ++ emit pos [.call name args.length start]) []
  | methodCall {start object name args pos pushed} : LowersValue (.arguments args) start pushed →
      Lowers (.one none (.methodCall object name args pos)) start
        (pushed ++ emit pos [.callMethod object name args.length start]) []
  | stop {start pos} : Lowers (.one none (.stop pos)) start (emit pos [.stop]) []
  | nothing {start pos} : Lowers (.one none (.nothing pos)) start (emit pos [.nop]) []
  | wait {start all names pos} :
      Lowers (.one none (.wait all names pos)) start (emit pos [.wait all names]) []
  | ret {start pos} : Lowers (.one none (.ret none pos)) start (emit pos [.ret false]) []
  | retValue {start value pos code} : LowersValue (.value value) start code →
      Lowers (.one none (.ret (some value) pos)) start (code ++ emit pos [.ret true]) []
  | countLoop {start first last step counter body pos stepped initial limit inner entries}
      {stepName counterName : String} {top after : Nat} :
      stepName = loopVariable start "s" → counterName = counter.getD (loopVariable start "i") →
      top = start + stepped.length + 1 + initial.length + 1 →
      after = top + limit.length + 3 + inner.length + 5 →
      LowersValue (.value (step.getD (.int 1 pos))) start stepped →
      LowersValue (.value first) (start + stepped.length + 1) initial →
      LowersValue (.value last) (top + 1) limit →
      Lowers (.many body) (top + limit.length + 3) inner entries →
      Lowers (.one none (.countLoop first last step counter body pos)) start
        (stepped ++ emit pos [.setVariable stepName] ++ initial ++
          emit pos [.setVariable counterName, .pushVariable counterName] ++ limit ++
          emit pos [.operate .le, .jumpUnless after] ++ inner ++
          emit pos [.pushVariable counterName, .pushVariable stepName, .operate .add,
            .setVariable counterName, .jump top]) entries
  | eachLoop {start items item body pos source inner entries} {array index count : String}
      {top after : Nat} :
      array = loopVariable start "a" → index = loopVariable start "i" →
      count = loopVariable start "c" → top = start + source.length + 6 →
      after = top + 8 + inner.length + 5 →
      LowersValue (.value items) start source → Lowers (.many body) (top + 8) inner entries →
      Lowers (.one none (.eachLoop items item body pos)) start
        (source ++ emit pos [.setVariable array, .pushValue (.int 0), .setVariable index,
            .pushVariable array, .callBuiltin .arrayCount 1, .setVariable count,
            .pushVariable index, .pushVariable count, .operate .lt, .jumpUnless after,
            .pushVariable index, .pushVariable array, .callBuiltin .arrayGet 2,
            .setVariable item] ++ inner ++
          emit pos [.pushValue (.int 1), .pushVariable index, .operate .add, .setVariable index,
            .jump top]) entries
  | whileLoop {start condition body pos test inner entries} {after : Nat} :
      after = start + test.length + 1 + inner.length + 1 →
      LowersValue (.value condition) start test →
      Lowers (.many body) (start + test.length + 1) inner entries →
      Lowers (.one none (.whileLoop condition body pos)) start
        (test ++ emit pos [.jumpUnless after] ++ inner ++ emit pos [.jump start]) entries
  | procedure {start name params body pos inner entries} {after : Nat} :
      after = start + params.length + 2 + inner.length + 1 →
      Lowers (.many body) (start + params.length + 2) inner entries →
      Lowers (.one none (.procedure name params body pos)) start
        (emit pos (.jump after :: .expectStack params.length ::
          params.reverse.map .setVariable) ++ inner ++ emit pos [.ret false])
        ((name, start + 1) :: entries)
  | nil {start} : Lowers (.many []) start [] []
  | cons {start first rest code later entries laterEntries} :
      Lowers (.one none first) start code entries →
      Lowers (.many rest) (start + code.length) later laterEntries →
      Lowers (.many (first :: rest)) start (code ++ later) (entries ++ laterEntries)
  | noElse {exit start} : Lowers (.orElse exit none) start [] []
  | someElse {exit start next code entries} : Lowers (.one (some exit) next) start code entries →
      Lowers (.orElse exit (some next)) start code entries
  | noOtherwise {exit pos start} : Lowers (.otherwise exit pos none) start [] []
  | someOtherwise {exit pos start body code entries} : Lowers (.many body) start code entries →
      Lowers (.otherwise exit pos (some body)) start (code ++ emit pos [.jump exit]) entries

namespace Lowers

open Node

theorem of_stepCode {start : Nat} {pos : Option SourcePos} {step : Option Node}
    {code : List Instruction} (h : stepCode start pos step = .ok code) :
    LowersValue (.value (step.getD (.int 1 pos))) start code := by
  cases step with
  | none => cases h; exact .literal rfl
  | some step => exact .of_valueCode step start code h

theorem of_resultCode {start : Nat} {pos : Option SourcePos} {result : Option Node}
    {code : List Instruction} (h : resultCode start pos result = .ok code) :
    Lowers (.one none (.ret result pos)) start code [] := by
  cases result with
  | none => cases h; exact .ret
  | some result =>
    simp only [resultCode, Except.bind_eq_ok] at h
    obtain ⟨inside, h₁, h₂⟩ := h
    cases h₂
    exact .retValue (.of_valueCode result start inside h₁)

mutual

theorem of_statementCode : (node : Node) → (exit? : Option Nat) → (start : Nat) →
    (block : Block) → statementCode exit? start node = .ok block →
    Lowers (.one exit? node) start block.code block.entries
  | .branch condition body orElse otherwise pos, exit?, start, block, h => by
    simp only [statementCode, Except.bind_eq_ok] at h
    obtain ⟨test, h₁, taken, h₂, next, h₃, last, h₄, h₅⟩ := h
    cases h₅
    simpa [Block.size] using Lowers.branch rfl rfl (.of_valueCode condition start test h₁)
      (of_statementsCode body _ taken h₂) (of_orElseCode orElse _ _ next h₃)
      (of_otherwiseCode otherwise _ _ pos last h₄)
  | .assign name value pos, none, start, block, h => by
    simp only [statementCode, Option.isSome_none, Bool.false_eq_true, reduceIte,
      Except.bind_eq_ok] at h
    obtain ⟨code, h₁, h₂⟩ := h
    cases h₂
    exact .assign (.of_valueCode value start code h₁)
  | .call name args pos, none, start, block, h
  | .methodCall object name args pos, none, start, block, h => by
    simp only [statementCode, Option.isSome_none, Bool.false_eq_true, reduceIte,
      Except.bind_eq_ok] at h
    obtain ⟨pushed, h₁, h₂⟩ := h
    cases h₂
    constructor
    exact .of_argumentsCode args start pushed h₁
  | .stop pos, none, start, block, h | .nothing pos, none, start, block, h
  | .wait all names pos, none, start, block, h => by
    simp only [statementCode, Option.isSome_none, Bool.false_eq_true, reduceIte] at h
    cases h
    constructor
  | .ret result pos, none, start, block, h => by
    simp only [statementCode, Option.isSome_none, Bool.false_eq_true, reduceIte,
      Except.bind_eq_ok] at h
    obtain ⟨code, h₁, h₂⟩ := h
    cases h₂
    exact of_resultCode h₁
  | .countLoop first last step counter body pos, none, start, block, h => by
    simp only [statementCode, Option.isSome_none, Bool.false_eq_true, reduceIte,
      Except.bind_eq_ok] at h
    obtain ⟨stepped, h₁, initial, h₂, limit, h₃, inner, h₄, h₅⟩ := h
    cases h₅
    simpa [Block.size] using Lowers.countLoop rfl rfl rfl rfl (of_stepCode h₁)
      (.of_valueCode first _ initial h₂) (.of_valueCode last _ limit h₃)
      (of_statementsCode body _ inner h₄)
  | .eachLoop items item body pos, none, start, block, h => by
    simp only [statementCode, Option.isSome_none, Bool.false_eq_true, reduceIte,
      Except.bind_eq_ok] at h
    obtain ⟨source, h₁, inner, h₂, h₃⟩ := h
    cases h₃
    simpa [Block.size] using Lowers.eachLoop rfl rfl rfl rfl rfl
      (.of_valueCode items start source h₁) (of_statementsCode body _ inner h₂)
  | .whileLoop condition body pos, none, start, block, h => by
    simp only [statementCode, Option.isSome_none, Bool.false_eq_true, reduceIte,
      Except.bind_eq_ok] at h
    obtain ⟨test, h₁, inner, h₂, h₃⟩ := h
    cases h₃
    simpa [Block.size] using Lowers.whileLoop rfl (.of_valueCode condition start test h₁)
      (of_statementsCode body _ inner h₂)
  | .procedure name params body pos, none, start, block, h => by
    simp only [statementCode, Option.isSome_none, Bool.false_eq_true, reduceIte,
      Except.bind_eq_ok] at h
    obtain ⟨inner, h₁, h₂⟩ := h
    cases h₂
    simpa [Block.size] using Lowers.procedure rfl (of_statementsCode body _ inner h₁)
  | .assign .., some exit, start, block, h | .call .., some exit, start, block, h
  | .methodCall .., some exit, start, block, h | .stop .., some exit, start, block, h
  | .nothing .., some exit, start, block, h | .wait .., some exit, start, block, h
  | .ret .., some exit, start, block, h | .countLoop .., some exit, start, block, h
  | .eachLoop .., some exit, start, block, h | .whileLoop .., some exit, start, block, h
  | .procedure .., some exit, start, block, h => by
    simp only [statementCode, Option.isSome_some, reduceIte] at h
    contradiction
  | .root .., exit?, start, block, h | .group .., exit?, start, block, h
  | .binary .., exit?, start, block, h | .negate .., exit?, start, block, h
  | .path .., exit?, start, block, h | .ident .., exit?, start, block, h
  | .int .., exit?, start, block, h | .float .., exit?, start, block, h
  | .str .., exit?, start, block, h | .bool .., exit?, start, block, h
  | .null .., exit?, start, block, h => by
    simp only [statementCode] at h
    split at h <;> cases h

theorem of_statementsCode : (nodes : List Node) → (start : Nat) → (block : Block) →
    statementsCode start nodes = .ok block → Lowers (.many nodes) start block.code block.entries
  | [], start, block, h => by
    simp only [statementsCode] at h
    cases h
    exact .nil
  | first :: rest, start, block, h => by
    simp only [statementsCode, Except.bind_eq_ok] at h
    obtain ⟨head, h₁, later, h₂, h₃⟩ := h
    cases h₃
    exact .cons (of_statementCode first none start head h₁) (of_statementsCode rest _ later h₂)

theorem of_orElseCode : (next : Option Node) → (exit start : Nat) → (block : Block) →
    orElseCode exit start next = .ok block →
    Lowers (.orElse exit next) start block.code block.entries
  | none, exit, start, block, h => by
    simp only [orElseCode] at h
    cases h
    exact .noElse
  | some next, exit, start, block, h => by
    simp only [orElseCode] at h
    exact .someElse (of_statementCode next (some exit) start block h)

theorem of_otherwiseCode : (last : Option (List Node)) → (exit start : Nat) →
    (pos : Option SourcePos) → (block : Block) → otherwiseCode exit start pos last = .ok block →
    Lowers (.otherwise exit pos last) start block.code block.entries
  | none, exit, start, pos, block, h => by
    simp only [otherwiseCode] at h
    cases h
    exact .noOtherwise
  | some body, exit, start, pos, block, h => by
    simp only [otherwiseCode, Except.bind_eq_ok] at h
    obtain ⟨inner, h₁, h₂⟩ := h
    cases h₂
    simpa using Lowers.someOtherwise (of_statementsCode body start inner h₁)

end

theorem append {nodes others : List Node} {start : Nat} {code later : List Instruction}
    {entries laterEntries : List (String × Nat)} (h : Lowers (.many nodes) start code entries)
    (h' : Lowers (.many others) (start + code.length) later laterEntries) :
    Lowers (.many (nodes ++ others)) start (code ++ later) (entries ++ laterEntries) := by
  induction nodes generalizing start code entries with
  | nil => cases h; simpa using h'
  | cons node nodes ih =>
    cases h with
    | cons h₁ h₂ =>
      rw [List.append_assoc, List.append_assoc]
      refine .cons h₁ (ih h₂ ?_)
      simpa [Nat.add_assoc] using h'

theorem of_compile {tree : Node} {before : List Node} {program : Program}
    (h : tree.compile before = .ok program) : ∃ code entries,
      Lowers (.many (before ++ tree.topLevel)) 0 code entries ∧
        program = ⟨code.toArray, Table.ofPairs entries⟩ := by
  simp only [compile, Except.bind_eq_ok] at h
  obtain ⟨first, h₁, rest, h₂, h₃⟩ := h
  cases h₃
  have hrest := of_statementsCode tree.topLevel first.size rest h₂
  rw [← Nat.zero_add first.size] at hrest
  exact ⟨_, _, (of_statementsCode before 0 first h₁).append hrest, rfl⟩

theorem of_compileExpression {tree : Node} {before : List Node} {program : Program}
    (h : tree.compileExpression before = .ok program) : ∃ code entries value,
      Lowers (.many before) 0 code entries ∧ LowersValue (.value tree) code.length value ∧
        program = ⟨(code ++ value).toArray, Table.ofPairs entries⟩ := by
  simp only [compileExpression, Except.bind_eq_ok] at h
  obtain ⟨first, h₁, value, h₂, h₃⟩ := h
  cases h₃
  refine ⟨first.code, first.entries, value, of_statementsCode before 0 first h₁,
    .of_valueCode tree _ value h₂, ?_⟩
  simp [Block.toProgram]

end Lowers

end DurableScript
