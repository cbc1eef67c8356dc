import DurableScript.Compile

namespace DurableScript

/-- What a node stands for: a statement, the next branch of an `or` chain, a value, or the name that
the signals are compared with. -/
inductive Role where
  | statement
  | continuation
  | value
  | signalName
  deriving DecidableEq

structure Site where
  role : Role
  node : Node

namespace Node

def isBranch : Node → Bool
  | branch .. => true
  | _ => false

def isStatement : Node → Bool
  | assign .. | branch .. | countLoop .. | eachLoop .. | whileLoop .. | procedure .. | ret ..
  | stop _ | nothing _ | wait .. | call .. | methodCall .. => true
  | _ => false

def isValue : Node → Bool
  | call .. | methodCall .. | group .. | binary .. | negate .. | path .. | ident .. | int ..
  | float .. | str .. | bool .. | null _ => true
  | _ => false

def isName : Node → Bool
  | ident .. | str .. => true
  | _ => false

def isRoot : Node → Bool
  | root .. => true
  | _ => false

def isEmptyPath : Node → Bool
  | path [] _ => true
  | _ => false

def signalOperator? : Node → Option Operator
  | binary op left _ _ => if left.isSignal then some op else none
  | _ => none

end Node

namespace Site

def IsLawful (site : Site) : Prop :=
  match site.role with
  | .statement => site.node.isStatement
  | .continuation => site.node.isBranch
  | .value => site.node.isValue ∧ site.node.isEmptyPath = false ∧
      ∀ op, site.node.signalOperator? = some op → op = .eq ∨ op = .ne
  | .signalName => site.node.isName

def offence? (site : Site) : Option CompileError :=
  let node := site.node
  let misplaced (why : Misplacement) := some (CompileError.misplaced node.kindName why node.pos)
  match site.role with
  | .statement =>
    if node.isStatement then none
    else if node.isRoot then misplaced .nestedRoot
    else some (.notStatement node.kindName node.pos)
  | .continuation => if node.isBranch then none else misplaced .brokenChain
  | .value =>
    if node.isValue then
      if node.isEmptyPath then misplaced .emptyPath
      else
        match node.signalOperator? with
        | none | some .eq | some .ne => none
        | some op => some (.signalOperator op node.pos)
    else some (.notValue node.kindName node.pos)
  | .signalName => if node.isName then none else misplaced .signalName

theorem isLawful_iff {site : Site} : site.IsLawful ↔ site.offence? = none := by
  obtain ⟨role, node⟩ := site
  cases role with
  | statement =>
    simp only [IsLawful, offence?]
    cases node.isStatement <;> cases node.isRoot <;> simp
  | continuation =>
    simp only [IsLawful, offence?]
    cases node.isBranch <;> simp
  | value =>
    simp only [IsLawful, offence?]
    cases node.isValue <;> cases node.isEmptyPath <;> cases node.signalOperator? with
    | none => simp
    | some op => cases op <;> simp
  | signalName =>
    simp only [IsLawful, offence?]
    cases node.isName <;> simp

theorem pos_of_offence? {site : Site} {error : CompileError} (h : site.offence? = some error) :
    error.pos = site.node.pos := by
  obtain ⟨role, node⟩ := site
  unfold offence? at h
  dsimp only at h ⊢
  repeat' split at h
  all_goals
    cases h
    try rfl

end Site

namespace Node

mutual

def valueSites : Node → List Site
  | call name args pos => ⟨.value, call name args pos⟩ :: argumentSites args
  | methodCall object name args pos => ⟨.value, methodCall object name args pos⟩ :: argumentSites args
  | group inner pos => ⟨.value, group inner pos⟩ :: valueSites inner
  | binary op left right pos => ⟨.value, binary op left right pos⟩ ::
      if left.isSignal then [⟨.signalName, right⟩] else valueSites left ++ valueSites right
  | negate inner pos => ⟨.value, negate inner pos⟩ :: valueSites inner
  | other => [⟨.value, other⟩]

def argumentSites : List Node → List Site
  | [] => []
  | arg :: rest => argumentSites rest ++ valueSites arg

end

def givenSites : Option Node → List Site
  | none => []
  | some node => node.valueSites

mutual

def statementSites (role : Role) : Node → List Site
  | assign name value pos => ⟨role, assign name value pos⟩ :: valueSites value
  | branch condition body orElse otherwise pos => ⟨role, branch condition body orElse otherwise pos⟩ ::
      (valueSites condition ++ (statementsSites body ++ (orElseSites orElse ++ otherwiseSites otherwise)))
  | countLoop first last step counter body pos => ⟨role, countLoop first last step counter body pos⟩ ::
      (givenSites step ++ (valueSites first ++ (valueSites last ++ statementsSites body)))
  | eachLoop items item body pos => ⟨role, eachLoop items item body pos⟩ ::
      (valueSites items ++ statementsSites body)
  | whileLoop condition body pos => ⟨role, whileLoop condition body pos⟩ ::
      (valueSites condition ++ statementsSites body)
  | procedure name params body pos => ⟨role, procedure name params body pos⟩ :: statementsSites body
  | ret result pos => ⟨role, ret result pos⟩ :: givenSites result
  | call name args pos => ⟨role, call name args pos⟩ :: argumentSites args
  | methodCall object name args pos => ⟨role, methodCall object name args pos⟩ :: argumentSites args
  | other => [⟨role, other⟩]

def statementsSites : List Node → List Site
  | [] => []
  | first :: rest => statementSites .statement first ++ statementsSites rest

def orElseSites : Option Node → List Site
  | none => []
  | some next => statementSites .continuation next

def otherwiseSites : Option (List Node) → List Site
  | none => []
  | some body => statementsSites body

end

end Node

/-- The outcome is that of looking at the sites one after the other: the first offence, if there is
one. -/
def Examines {α : Type} (sites : List Site) (outcome : Except CompileError α) : Prop :=
  match sites.findSome? Site.offence? with
  | none => ∃ a, outcome = .ok a
  | some error => outcome = .error error

namespace Examines

variable {α β : Type} {site : Site} {sites others : List Site} {outcome : Except CompileError α}
  {f : α → Except CompileError β}

theorem ok (a : α) : Examines [] (.ok a : Except CompileError α) := ⟨a, rfl⟩

theorem error {error : CompileError} (h : site.offence? = some error) :
    Examines (site :: sites) (.error error : Except CompileError α) := by
  simp [Examines, h]

theorem cons (h : site.offence? = none) (hrest : Examines sites outcome) :
    Examines (site :: sites) outcome := by
  simpa [Examines, h] using hrest

theorem bind (h : Examines sites outcome) (hf : ∀ a, outcome = .ok a → Examines others (f a)) :
    Examines (sites ++ others) (outcome >>= f) := by
  unfold Examines at h ⊢
  rw [List.findSome?_append]
  cases hfound : sites.findSome? Site.offence? with
  | none =>
    rw [hfound] at h
    obtain ⟨a, rfl⟩ := h
    exact hf a rfl
  | some error =>
    rw [hfound] at h
    subst h
    rfl

theorem map (h : Examines sites outcome) (g : α → β) :
    Examines sites (outcome >>= fun a => .ok (g a)) := by
  rw [← List.append_nil sites]
  exact h.bind fun a _ => .ok (g a)

theorem exists_ok_iff (h : Examines sites outcome) :
    (∃ a, outcome = .ok a) ↔ ∀ site ∈ sites, site.IsLawful := by
  simp only [Site.isLawful_iff, ← List.findSome?_eq_none_iff]
  unfold Examines at h
  split at h
  · next hnone => simp [hnone, h]
  · next error hsome => simp [hsome, h]

theorem eq_error_iff (h : Examines sites outcome) {error : CompileError} :
    outcome = .error error ↔ ∃ earlier site later, sites = earlier ++ site :: later ∧
      (∀ other ∈ earlier, other.IsLawful) ∧ site.offence? = some error := by
  have hfirst : outcome = .error error ↔ sites.findSome? Site.offence? = some error := by
    unfold Examines at h
    split at h
    · next hnone =>
      obtain ⟨a, rfl⟩ := h
      simp [hnone]
    · next found hsome => simp [hsome, h]
  rw [hfirst, List.findSome?_eq_some_iff]
  simp only [Site.isLawful_iff]
  constructor
  · rintro ⟨earlier, site, later, hsites, hsite, hearlier⟩
    exact ⟨earlier, site, later, hsites, hearlier, hsite⟩
  · rintro ⟨earlier, site, later, hsites, hearlier, hsite⟩
    exact ⟨earlier, site, later, hsites, hsite, hearlier⟩

end Examines

namespace Node

theorem examines_signalTest {op : Operator} {left right : Node} {pos : Option SourcePos}
    (h : left.isSignal = true) :
    Examines [⟨.value, binary op left right pos⟩, ⟨.signalName, right⟩] (signalTest op right pos) := by
  have hname (function : Builtin) : Examines [⟨.signalName, right⟩]
      (match right with
      | ident name _
      | str name _ => .ok (emit pos [.pushValue (.str name), .callBuiltin function 1])
      | other => .error (.misplaced other.kindName .signalName other.pos)) := by
    cases right with
    | ident | str => exact .cons rfl (.ok _)
    | _ => exact .error rfl
  have hoperator : (binary op left right pos).signalOperator? = some op := if_pos h
  cases op with
  | eq | ne => exact .cons (by simp [Site.offence?, isValue, isEmptyPath, hoperator]) (hname _)
  | _ => exact .error (by simp [Site.offence?, isValue, isEmptyPath, hoperator, Node.pos])

theorem examines_pathCode (names : List String) (pos : Option SourcePos) :
    Examines [⟨.value, path names pos⟩] (pathCode names pos) := by
  unfold pathCode
  split
  · next hnames =>
    rw [List.reverse_eq_nil_iff] at hnames
    subst hnames
    exact .error rfl
  · next object properties hnames =>
    refine .cons ?_ (.ok _)
    cases names with
    | nil => cases hnames
    | cons => rfl

mutual

theorem examines_valueCode : (node : Node) → (start : Nat) →
    Examines node.valueSites (valueCode start node)
  | binary op left right pos, start => by
    rw [valueSites, valueCode]
    split
    · next h => exact examines_signalTest h
    · next h =>
      have hoperator : (binary op left right pos).signalOperator? = none := if_neg h
      refine .cons (by simp [Site.offence?, isValue, isEmptyPath, hoperator]) ?_
      exact (examines_valueCode left start).bind fun first _ => (examines_valueCode right _).map _
  | call name args pos, start | methodCall object name args pos, start => by
    rw [valueSites, valueCode]
    exact .cons rfl ((examines_argumentsCode args start).map _)
  | group inner pos, start => by
    rw [valueSites, valueCode]
    exact .cons rfl (examines_valueCode inner start)
  | negate inner pos, start => by
    rw [valueSites, valueCode]
    exact .cons rfl ((examines_valueCode inner start).map _)
  | path names pos, start => by
    rw [valueSites, valueCode]
    · exact examines_pathCode names pos
    all_goals nofun
  | ident .., start | int .., start | float .., start | str .., start | bool .., start
  | null .., start => .cons rfl (.ok _)
  | root .., start | assign .., start | branch .., start | countLoop .., start | eachLoop .., start
  | whileLoop .., start | procedure .., start | ret .., start | stop .., start | nothing .., start
  | wait .., start => .error rfl

theorem examines_argumentsCode : (args : List Node) → (start : Nat) →
    Examines (argumentSites args) (argumentsCode start args)
  | [], _ => .ok []
  | arg :: rest, start => by
    rw [argumentSites, argumentsCode]
    exact (examines_argumentsCode rest start).bind fun later _ => (examines_valueCode arg _).map _

end

theorem examines_stepCode (start : Nat) (pos : Option SourcePos) (step : Option Node) :
    Examines (givenSites step) (stepCode start pos step) := by
  cases step with
  | none => exact .ok _
  | some step => exact examines_valueCode step start

theorem examines_resultCode (start : Nat) (pos : Option SourcePos) (result : Option Node) :
    Examines (givenSites result) (resultCode start pos result) := by
  cases result with
  | none => exact .ok _
  | some result => exact (examines_valueCode result start).map _

def roleIn (exit? : Option Nat) : Role := if exit?.isSome then .continuation else .statement

theorem examines_continuation {node : Node} (h : node.isBranch = false) (exit start : Nat) :
    Examines (statementSites .continuation node) (statementCode (some exit) start node) := by
  cases node with
  | branch => cases h
  | _ => exact .error rfl

mutual

theorem examines_statementCode : (node : Node) → (exit? : Option Nat) → (start : Nat) →
    Examines (statementSites (roleIn exit?) node) (statementCode exit? start node)
  | branch condition body orElse otherwise pos, exit?, start => by
    rw [statementSites, statementCode]
    refine .cons (by cases exit? <;> rfl) ?_
    refine (examines_valueCode condition start).bind fun test _ => ?_
    refine (examines_statementsCode body _).bind fun taken _ => ?_
    refine (examines_orElseCode orElse _ _).bind fun next _ => ?_
    exact (examines_otherwiseCode otherwise _ _ pos).map _
  | assign name value pos, none, start => by
    rw [statementSites, statementCode]
    exact .cons rfl ((examines_valueCode value start).map _)
  | call name args pos, none, start | methodCall object name args pos, none, start => by
    rw [statementSites, statementCode]
    exact .cons rfl ((examines_argumentsCode args start).map _)
  | ret result pos, none, start => by
    rw [statementSites, statementCode]
    exact .cons rfl ((examines_resultCode start pos result).map _)
  | countLoop first last step counter body pos, none, start => by
    rw [statementSites, statementCode]
    refine .cons rfl ?_
    refine (examines_stepCode start pos step).bind fun stepped _ => ?_
    refine (examines_valueCode first _).bind fun initial _ => ?_
    refine (examines_valueCode last _).bind fun limit _ => ?_
    exact (examines_statementsCode body _).map _
  | eachLoop items item body pos, none, start => by
    rw [statementSites, statementCode]
    refine .cons rfl ?_
    exact (examines_valueCode items start).bind fun source _ => (examines_statementsCode body _).map _
  | whileLoop condition body pos, none, start => by
    rw [statementSites, statementCode]
    refine .cons rfl ?_
    exact (examines_valueCode condition start).bind fun test _ => (examines_statementsCode body _).map _
  | procedure name params body pos, none, start => by
    rw [statementSites, statementCode]
    exact .cons rfl ((examines_statementsCode body _).map _)
  | stop .., none, start | nothing .., none, start | wait .., none, start => .cons rfl (.ok _)
  | root .., none, start | group .., none, start | binary .., none, start | negate .., none, start
  | path .., none, start | ident .., none, start | int .., none, start | float .., none, start
  | str .., none, start | bool .., none, start | null .., none, start => .error rfl
  | assign .., some exit, start | call .., some exit, start | methodCall .., some exit, start
  | stop .., some exit, start | nothing .., some exit, start | wait .., some exit, start
  | ret .., some exit, start | countLoop .., some exit, start | eachLoop .., some exit, start
  | whileLoop .., some exit, start | procedure .., some exit, start | root .., some exit, start
  | group .., some exit, start | binary .., some exit, start | negate .., some exit, start
  | path .., some exit, start | ident .., some exit, start | int .., some exit, start
  | float .., some exit, start | str .., some exit, start | bool .., some exit, start
  | null .., some exit, start => examines_continuation rfl exit start

theorem examines_statementsCode : (nodes : List Node) → (start : Nat) →
    Examines (statementsSites nodes) (statementsCode start nodes)
  | [], _ => .ok _
  | first :: rest, start => by
    rw [statementsSites, statementsCode]
    exact (examines_statementCode first none start).bind
      fun block _ => (examines_statementsCode rest _).map _

theorem examines_orElseCode : (next : Option Node) → (exit start : Nat) →
    Examines (orElseSites next) (orElseCode exit start next)
  | none, _, _ => .ok _
  | some next, exit, start => by
    rw [orElseSites, orElseCode]
    exact examines_statementCode next (some exit) start

theorem examines_otherwiseCode : (last : Option (List Node)) → (exit start : Nat) →
    (pos : Option SourcePos) → Examines (otherwiseSites last) (otherwiseCode exit start pos last)
  | none, _, _, _ => .ok _
  | some body, exit, start, pos => by
    rw [otherwiseSites, otherwiseCode]
    exact (examines_statementsCode body start).map _

end

theorem statementsSites_append (nodes others : List Node) :
    statementsSites (nodes ++ others) = statementsSites nodes ++ statementsSites others := by
  induction nodes with
  | nil => rfl
  | cons node nodes ih => simp [statementsSites, ih]

theorem examines_compile (tree : Node) (before : List Node) :
    Examines (statementsSites (before ++ tree.topLevel)) (tree.compile before) := by
  rw [statementsSites_append]
  exact (examines_statementsCode before 0).bind
    fun first _ => (examines_statementsCode tree.topLevel _).map _

end Node

/-- The compiler accepts a tree exactly if every node in it may stand where it stands. Otherwise it
reports the first one, in the order in which it looks at them, that may not: with what is wrong about
it, and with its place in the source. -/
theorem compile_reports_first_offender (tree : Node) (before : List Node) :
    ((∃ program, tree.compile before = .ok program) ↔
      ∀ site ∈ Node.statementsSites (before ++ tree.topLevel), site.IsLawful) ∧
    ∀ error, tree.compile before = .error error ↔ ∃ earlier site later,
      Node.statementsSites (before ++ tree.topLevel) = earlier ++ site :: later ∧
        (∀ other ∈ earlier, other.IsLawful) ∧ site.offence? = some error ∧
        error.pos = site.node.pos := by
  have hcompile := Node.examines_compile tree before
  refine ⟨hcompile.exists_ok_iff, fun error => ?_⟩
  rw [hcompile.eq_error_iff]
  constructor
  · rintro ⟨earlier, site, later, hsites, hearlier, hsite⟩
    exact ⟨earlier, site, later, hsites, hearlier, hsite, site.pos_of_offence? hsite⟩
  · rintro ⟨earlier, site, later, hsites, hearlier, hsite, -⟩
    exact ⟨earlier, site, later, hsites, hearlier, hsite⟩

-- A signal has no place in an order.
example : (Node.root [.assign "late" (.binary .lt (.ident "signal" none) (.str "go" none)
      (some ⟨3, 8, 13⟩)) none] none).compile [] = .error (.signalOperator .lt (some ⟨3, 8, 13⟩)) :=
  rfl

end DurableScript
