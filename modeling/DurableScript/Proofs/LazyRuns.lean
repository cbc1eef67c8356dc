import DurableScript.Proofs.CycleLimit
import DurableScript.Proofs.LazyReading
import DurableScript.Proofs.SharedObjects
import DurableScript.Proofs.Suspension

namespace DurableScript

variable {H : Type} {K : ObjectRef Value → Prop} {R : ObjectRef Value → ObjectRef Value → Prop}

namespace Value

mutual

theorem Matches.tagged_eq {objects store : Objects}
    (href : ∀ r q, R r q → (object q).tagged store = (object r).tagged objects) :
    ∀ {value other : Value}, value.Matches R other → other.tagged store = value.tagged objects
  | null, _, rfl | bool _, _, rfl | int _, _, rfl | float _, _, rfl | str _, _, rfl => rfl
  | list _, _, ⟨_, rfl, h⟩ => by rw [tagged, tagged, MatchesItems.tagged_eq href h]
  | record _, _, ⟨_, rfl, h⟩ => by rw [tagged, tagged, MatchesFields.tagged_eq href h]
  | object r, _, ⟨q, rfl, h⟩ => href r q h

theorem MatchesItems.tagged_eq {objects store : Objects}
    (href : ∀ r q, R r q → (object q).tagged store = (object r).tagged objects) :
    ∀ {items others : List Value}, MatchesItems R items others →
      taggedItems store others = taggedItems objects items
  | [], _, rfl => rfl
  | _ :: _, _, ⟨_, _, rfl, h, hrest⟩ => by
    rw [taggedItems, taggedItems, Matches.tagged_eq href h, MatchesItems.tagged_eq href hrest]

theorem MatchesFields.tagged_eq {objects store : Objects}
    (href : ∀ r q, R r q → (object q).tagged store = (object r).tagged objects) :
    ∀ {fields others : List (String × Value)}, MatchesFields R fields others →
      taggedFields store others = taggedFields objects fields
  | [], _, rfl => rfl
  | (_, _) :: _, _, ⟨_, _, rfl, h, hrest⟩ => by
    rw [taggedFields, taggedFields, Matches.tagged_eq href h, MatchesFields.tagged_eq href hrest]

end

end Value

structure FrameView where
  vars : List (String × Tagged)
  stack : List Tagged
  result : Tagged
  returnTo : Option Nat

def Frame.view (objects : Objects) (frame : Frame) : FrameView where
  vars := Value.taggedFields objects frame.vars
  stack := Value.taggedItems objects frame.stack
  result := frame.result.tagged objects
  returnTo := frame.returnTo

structure ExecutionView where
  program : Program
  frames : List FrameView
  pc : Nat
  steps : Nat
  lastInterrupt : Option InterruptKind

def Execution.view (objects : Objects) (execution : Execution) : ExecutionView where
  program := execution.program
  frames := execution.frames.map (Frame.view objects)
  pc := execution.pc
  steps := execution.steps
  lastInterrupt := execution.lastInterrupt

structure StatusView where
  running : Bool
  reason : Option PauseReason
  waitingFor : Option WaitRequirement
  extra : Option Tagged

def Status.view (objects : Objects) (status : Status) : StatusView where
  running := status.running
  reason := status.reason
  waitingFor := status.waitingFor
  extra := status.extra.map (Value.tagged objects)

structure CallView where
  receiver : Option Tagged
  name : String
  args : List Tagged

def Call.view (call : Call) : CallView where
  receiver := call.receiver.map (Value.tagged call.objects)
  name := call.name
  args := Value.taggedItems call.objects call.args

theorem Objects.Twins.tagged_eq {store other : Objects} (h : Twins K R store other)
    {r q : ObjectRef Value} (href : R r q) :
    (Value.object q).tagged other = (Value.object r).tagged store := by
  have hpersisted := h.persisted_eq href
  obtain ⟨serial, object, rfl, -⟩ := h.ready href
  cases q with
  | ready =>
    obtain ⟨found, rfl, hmatches⟩ := h.answers href
    simp [Value.tagged, persisted, typeName?, content?, hmatches.persisted, hmatches.typeName]
  | lazy cell id =>
    have hkept : store.persisted (.ready serial object) = some (.reference id) := h.kept href
    simp only [Value.tagged, hpersisted, hkept]

section Views

variable {store other : Objects} (h : Objects.Twins K R store other)

include h

theorem Objects.Twins.frame_view_eq {frame frame' : Frame} (hframe : frame.Matches R frame') :
    frame'.view other = frame.view store := by
  rw [Frame.view, Frame.view, hframe.returnTo, hframe.result.tagged_eq fun _ _ => h.tagged_eq,
    (Value.matchesFields_iff.2 hframe.vars).tagged_eq fun _ _ => h.tagged_eq,
    (Value.matchesItems_iff.2 hframe.stack).tagged_eq fun _ _ => h.tagged_eq]

theorem Objects.Twins.view_eq {execution execution' : Execution}
    (hexecution : execution.Matches R execution') : execution'.view other = execution.view store := by
  rw [Execution.view, Execution.view, hexecution.program, hexecution.pc, hexecution.steps,
    hexecution.lastInterrupt,
    List.map_eq_of_forall₂ hexecution.frames fun _ _ hframe => h.frame_view_eq hframe]

theorem Objects.Twins.status_view_eq {status status' : Status} (hstatus : status.Matches R status') :
    status'.view other = status.view store := by
  have hextra := hstatus.extra
  rw [Status.view, Status.view, hstatus.running, hstatus.reason, hstatus.waitingFor]
  generalize status.extra = extra at hextra ⊢
  generalize status'.extra = extra' at hextra ⊢
  cases hextra with
  | none => rfl
  | some hvalue => rw [Option.map_some, Option.map_some, hvalue.tagged_eq fun _ _ => h.tagged_eq]

end Views

namespace Value

/-- The operator cannot tell a reference from the object that it stands for: objects that meet in a
comparison are equal only if they are one, and objects that are turned into text were looked up. -/
def Settled (objects : Objects) (left right : Value) : Operator → Prop
  | .eq | .ne => ∀ pair ∈ left.meetings right,
    objects.sameRef pair.1 pair.2 = true → pair.1.SameHandle pair.2
  | .concat => ∀ ref ∈ left.refs ++ right.refs, objects.isResolved ref = true
  | .add => (left.isStr || right.isStr) = true →
    ∀ ref ∈ left.refs ++ right.refs, objects.isResolved ref = true
  | _ => True

theorem isScalar_of_calculate {operation : Operation} {left right value : Value}
    (h : calculate operation left right = .ok value) : value.IsScalar := by
  unfold calculate at h
  obtain ⟨x, -, h⟩ := Except.bind_eq_ok.1 h
  obtain ⟨y, -, h⟩ := Except.bind_eq_ok.1 h
  split at h
  · cases h
  · split at h
    · split at h <;> cases h <;> trivial
    · cases h
      trivial

theorem isScalar_of_remainder {left right value : Value} (h : remainder left right = .ok value) :
    value.IsScalar := by
  unfold remainder at h
  obtain ⟨x, -, h⟩ := Except.bind_eq_ok.1 h
  obtain ⟨y, -, h⟩ := Except.bind_eq_ok.1 h
  dsimp only at h
  split at h
  · cases h
  · cases h
    trivial

theorem agree_self {result : Except RunFault Value}
    (h : ∀ value, result = .ok value → value.IsScalar) : Agree (Matches R) result result := by
  cases result with
  | error fault => exact .error fault
  | ok value => exact .ok (matches_self value fun r hr => by
      rw [(h value rfl).objectFree.refs_eq_nil] at hr
      cases hr)

variable {store other : Objects} {left right left' right' : Value}

theorem Matches.text_eq_of_resolved (h : Objects.Twins K R store other) {value value' : Value}
    (hvalue : value.Matches R value') (hresolved : ∀ ref ∈ value'.refs, other.isResolved ref = true) :
    value'.text other = value.text store := by
  have hlooked : value.Matches (fun r q => R r q ∧ other.isResolved q = true) value' :=
    hvalue.imp fun r _ q hq href => ⟨href, hresolved q hq⟩
  exact hlooked.text_eq fun r q href => h.label_eq href.1 href.2

theorem agree_apply (h : Objects.Twins K R store other) (hleft : left.Matches R left')
    (hright : right.Matches R right') {op : Operator} (hsettled : Settled other left' right' op) :
    Agree (Matches R) (apply store op left right) (apply other op left' right') := by
  have hjoin (hresolved : ∀ ref ∈ left'.refs ++ right'.refs, other.isResolved ref = true) :
      (join store left right).Matches R (join other left' right') := by
    rw [List.forall_mem_append] at hresolved
    rw [join, join, hleft.text_eq_of_resolved h hresolved.1, hright.text_eq_of_resolved h hresolved.2]
    rfl
  have hcalculate (operation : Operation) : Agree (Matches R) (calculate operation left right)
      (calculate operation left' right') := by
    rw [hleft.calculate_eq hright]
    exact agree_self fun _ => isScalar_of_calculate
  have hequal (hmeetings : ∀ pair ∈ left'.meetings right',
      other.sameRef pair.1 pair.2 = true → pair.1.SameHandle pair.2) :
      looseEq other left' right' = looseEq store left right :=
    hleft.looseEq_eq hright fun pair pair' hpair hmem =>
      h.sameRef_eq hpair.1 hpair.2 (hmeetings pair' hmem)
  cases op with
  | add =>
    simp only [apply, hleft.isStr_eq, hright.isStr_eq]
    split
    · next hstr => exact .ok (hjoin (hsettled (by rw [hleft.isStr_eq, hright.isStr_eq, hstr])))
    · exact hcalculate .add
  | sub => exact hcalculate .sub
  | mul => exact hcalculate .mul
  | div => exact hcalculate .div
  | mod =>
    rw [apply, apply, hleft.remainder_eq hright]
    exact agree_self fun _ => isScalar_of_remainder
  | concat => exact .ok (hjoin hsettled)
  | gt | lt | ge | le =>
    rw [apply, apply, hleft.order_eq hright]
    exact .ok rfl
  | eq | ne =>
    rw [apply, apply, hequal hsettled]
    exact .ok rfl
  | and | or =>
    rw [apply, apply, hleft.truthy_eq, hright.truthy_eq]
    exact .ok rfl

end Value

structure World.Twins (K : ObjectRef Value → Prop) (R : ObjectRef Value → ObjectRef Value → Prop)
    (world other : World H) : Prop where
  objects : Objects.Twins K R world.objects other.objects
  host : other.host = world.host

theorem World.Twins.bridge : World.Bridge R (World.Twins (H := H) K R) := by
  intro world other r q h href
  obtain ⟨object, found, after, hresolve, hresolve', hmatches, htwins⟩ := h.objects.resolve href
  rw [hresolve, hresolve']
  exact .ok ⟨hmatches, htwins, h.host⟩

structure CallContext.Matches (R : ObjectRef Value → ObjectRef Value → Prop)
    (context other : CallContext) : Prop where
  execution : context.execution.Matches R other.execution
  signals : other.signals = context.signals
  status : context.status.Matches R other.status

def AnswersAlike (K : ObjectRef Value → Prop) (R : ObjectRef Value → ObjectRef Value → Prop)
    (answer answer' : CallContext → List Value → World H → Reply × World H) : Prop :=
  ∀ {context context' args args' world world'}, context.Matches R context' →
    List.Forall₂ (Value.Matches R) args args' → World.Twins K R world world' →
    ∃ R' : ObjectRef Value → ObjectRef Value → Prop, (∀ r q, R r q → R' r q) ∧
      (answer context args world).1.Matches R' (answer' context' args' world').1 ∧
      World.Twins K R' (answer context args world).2 (answer' context' args' world').2

/-- The providers see in a reference no more than the object that it stands for. -/
structure Setting.LooksThrough (K : ObjectRef Value → Prop) (setting : Setting H) : Prop where
  functions : ∀ provider ∈ setting.functions, ∀ R name,
    AnswersAlike K R (provider.invoke · name) (provider.invoke · name)
  methods : ∀ provider ∈ setting.methods, ∀ R name {value value' : Value}, value.Matches R value' →
    AnswersAlike K R (provider.invoke · value name) (provider.invoke · value' name)

theorem Setting.LooksThrough.parallels {setting : Setting H} (h : setting.LooksThrough K)
    (R : ObjectRef Value → ObjectRef Value → Prop) :
    setting.Parallels R (AnswersAlike K R) setting where
  functions := List.forall₂_same.2 fun provider hprovider =>
    ⟨rfl, fun name => h.functions provider hprovider R name⟩
  methods := List.forall₂_same.2 fun provider hprovider =>
    ⟨rfl, fun name _ _ hvalue => h.methods provider hprovider R name hvalue⟩
  signals := rfl
  maxCallDepth := rfl

def Machine.Reflects (K : ObjectRef Value → Prop) (machine other : Machine H) : Prop :=
  ∃ R, machine.Mirrors R (World.Twins K R) other ∧
    other.execution.steps = machine.execution.steps

abbrev Outcome.Reflects (K : ObjectRef Value → Prop) : Outcome H → Outcome H → Prop :=
  Outcome.Rel (Machine.Reflects K) (Machine.Reflects K)

theorem Outcome.Mirrors.reflects {outcome other : Outcome H}
    (h : outcome.Mirrors R (World.Twins K R) other)
    (hsteps : other.machine.execution.steps = outcome.machine.execution.steps) :
    outcome.Reflects K other := by
  cases h with
  | ok h => exact .ok ⟨R, h, hsteps⟩
  | fail error h => exact .fail error ⟨R, h, hsteps⟩

namespace Machine

def Settled (machine : Machine H) : Prop :=
  ∀ pos op left right rest, machine.next? = some ⟨.operate op, pos⟩ →
    machine.stack = right :: left :: rest → Value.Settled machine.world.objects left right op

theorem settled_of_next?_eq_none {machine : Machine H} (h : machine.next? = none) :
    machine.Settled := by
  intro pos op left right rest hnext
  cases h.symm.trans hnext

theorem forall_settled_of_step {setting : Setting H} {machine next : Machine H}
    {instruction : Instruction} (hn : machine.next? = some instruction)
    (hop : ∀ op, instruction.op ≠ .operate op) (hs : machine.step setting instruction = .ok next)
    (h : ∀ last, Reaches setting next last → last.Settled) :
    ∀ last, Reaches setting machine last → last.Settled := by
  refine Reaches.forall_of_step ?_ hn hs h
  intro pos op left right rest hnext
  cases hn.symm.trans hnext
  exact absurd rfl (hop op)

variable {setting : Setting H} {machine other : Machine H}

theorem Mirrors.exists_conclude (h : machine.Mirrors R (World.Twins K R) other)
    (hsteps : other.execution.steps = machine.execution.steps) {request request' : Request H}
    (hrequest : request.Matches R (AnswersAlike K R) request') :
    ∃ R', ((machine.asking request).conclude request.restart (machine.reply setting request).1
      (machine.reply setting request).2).Mirrors R' (World.Twins K R')
      ((other.asking request').conclude request'.restart (other.reply setting request').1
        (other.reply setting request').2) := by
  have hasking : (machine.asking request).execution.Resembles R (other.asking request').execution := by
    rw [asking, asking, hrequest.argc]
    exact h.execution.dropOperands request.argc
  have hcontext : ((machine.asking request).context setting).Matches R
      ((other.asking request').context setting) := by
    refine ⟨⟨hasking, ?_⟩, rfl, h.status⟩
    exact (other.execution.stays_dropOperands _).steps.trans
      (hsteps.trans (machine.execution.stays_dropOperands _).steps.symm)
  have hargs : List.Forall₂ (Value.Matches R) (machine.stack.take request.argc)
      (other.stack.take request'.argc) := by
    rw [hrequest.argc]
    exact List.forall₂_take _ h.stack
  obtain ⟨R', hR, hreply, hworld⟩ := hrequest.answer hcontext hargs h.world
  rw [hrequest.restart]
  exact ⟨R', Mirrors.conclude (hasking.mono hR) (h.status.mono hR) hreply hworld request.restart⟩

theorem Reflects.execute (hsetting : setting.LooksThrough K) (h : machine.Reflects K other) {op : Op}
    (hsettled : ∀ {operator left right rest}, op = .operate operator →
      other.stack = right :: left :: rest →
      Value.Settled other.world.objects left right operator) :
    (Machine.execute setting machine op).Reflects K (Machine.execute setting other op) := by
  obtain ⟨R, hmirrors, hsteps⟩ := h
  have hsteps' : (Machine.execute setting other op).machine.execution.steps =
      (Machine.execute setting machine op).machine.execution.steps := by
    rw [(timed_execute setting other op).steps, (timed_execute setting machine op).steps, hsteps]
  cases hasked : machine.request? setting op with
  | none =>
    refine (hmirrors.execute (hsetting.parallels R) World.Twins.bridge hasked ?_).reflects hsteps'
    intro operator left right rest left' right' rest' hop _ hstack hleft hright
    exact Value.agree_apply hmirrors.world.objects hleft hright (hsettled hop hstack)
  | some asked =>
    obtain ⟨request, found⟩ := asked
    obtain ⟨request', found', hasked', hrequest, hfound⟩ :=
      hmirrors.exists_request? (hsetting.parallels R) World.Twins.bridge hasked
    have hfoundSteps : found'.execution.steps = found.execution.steps := by
      rw [(sameRun_request? hasked').execution, (sameRun_request? hasked).execution, hsteps]
    obtain ⟨R', hconclude⟩ := hfound.exists_conclude hfoundSteps hrequest
    rw [execute_of_request? hasked, execute_of_request? hasked', ← hfound.stack.length_eq,
      hrequest.argc] at hsteps' ⊢
    split at hsteps'
    · next hlt =>
      rw [if_pos hlt, if_pos hlt]
      exact ((hfound.setStack .nil).failWith .stackUnderflow).reflects hsteps'
    · next hlt =>
      rw [if_neg hlt, if_neg hlt]
      exact hconclude.reflects hsteps'

section

variable (h : machine.Reflects K other)
include h

theorem Reflects.clearMarks : machine.clearMarks.Reflects K other.clearMarks := by
  obtain ⟨R, hmirrors, hsteps⟩ := h
  exact ⟨R, hmirrors.clearMarks, hsteps⟩

theorem Reflects.limitReached?_eq :
    other.limitReached? setting = machine.limitReached? setting := by
  obtain ⟨R, -, hsteps⟩ := h
  rw [limitReached?, limitReached?, hsteps]

theorem Reflects.next?_eq : other.next? = machine.next? := by
  obtain ⟨R, hmirrors, -⟩ := h
  exact hmirrors.next?_eq

theorem Reflects.countStep (pos : Option SourcePos) :
    (machine.countStep.checkLimit setting pos).Reflects K
      (other.countStep.checkLimit setting pos) := by
  obtain ⟨R, hmirrors, hsteps⟩ := h
  have hcounted : machine.countStep.Reflects K other.countStep :=
    ⟨R, hmirrors.countStep, congrArg (· + 1) hsteps⟩
  have hrunning : other.countStep.status.running = machine.countStep.status.running :=
    hmirrors.status.running
  have hfinished : other.countStep.execution.isFinished = machine.countStep.execution.isFinished :=
    hmirrors.countStep.execution.isFinished_eq
  unfold checkLimit
  rw [hcounted.limitReached?_eq, hrunning, hfinished]
  split
  · split
    · exact .fail _ hcounted
    · exact .ok hcounted
  · exact .ok hcounted

end

theorem Reflects.step (hsetting : setting.LooksThrough K) (h : machine.Reflects K other)
    (hsettled : other.Settled) {instruction : Instruction} (hnext : machine.next? = some instruction) :
    (machine.step setting instruction).Reflects K (other.step setting instruction) := by
  have hexecute : (Machine.execute setting machine.clearMarks instruction.op).Reflects K
      (Machine.execute setting other.clearMarks instruction.op) :=
    h.clearMarks.execute hsetting fun hop hstack =>
      hsettled _ _ _ _ _ (by rw [h.next?_eq, hnext, ← hop]) hstack
  unfold Machine.step
  rw [h.limitReached?_eq]
  split
  · exact .fail _ h
  · generalize Machine.execute setting machine.clearMarks instruction.op = outcome at hexecute ⊢
    generalize Machine.execute setting other.clearMarks instruction.op = outcome' at hexecute ⊢
    cases hexecute with
    | fail error hfailed => exact .fail _ hfailed
    | @ok done done' hdone =>
      have hwaiting : done'.status.waitingFor = done.status.waitingFor := by
        obtain ⟨R, hmirrors, -⟩ := hdone
        exact hmirrors.status.waitingFor
      simp only [Outcome.atPos, hwaiting]
      split
      · exact .ok hdone
      · exact hdone.countStep instruction.pos

theorem Reflects.settle (h : machine.Reflects K other) : machine.settle.Reflects K other.settle := by
  obtain ⟨R, hmirrors, hsteps⟩ := h
  refine ⟨R, hmirrors.settle, ?_⟩
  unfold Machine.settle
  split <;> split <;> exact hsteps

theorem lockstep_reflects (hsetting : setting.LooksThrough K) : Lockstep setting setting
      (fun machine other => machine.Reflects K other ∧
        ∀ reached, Reaches setting other reached → reached.Settled) (Machine.Reflects K) where
  next? h := h.1.next?_eq
  settle h := h.1.settle
  step := by
    rintro machine other instruction ⟨h, hsettled⟩ hnext
    have hstep := h.step hsetting (hsettled _ .refl) hnext
    have hreaches (next : Machine H) (hok : other.step setting instruction = .ok next) :
        Reaches setting other next := .single (h.next?_eq.trans hnext) hok
    generalize machine.step setting instruction = outcome at hstep ⊢
    generalize other.step setting instruction = outcome' at hstep hreaches ⊢
    cases hstep with
    | ok hnext =>
      exact .ok ⟨hnext, fun reached hreached => hsettled _ ((hreaches _ rfl).trans hreached)⟩
    | fail error hfailed => exact .fail error hfailed

theorem Reflects.call? (hsetting : setting.LooksThrough K) (h : machine.Reflects K other)
    (op : Op) : Option.Rel (fun call call' => call.view = call'.view)
      (machine.call? setting op) (other.call? setting op) := by
  have hlimit : other.limitReached? setting = machine.limitReached? setting := h.limitReached?_eq
  obtain ⟨R, hmirrors, -⟩ := h
  have hrequest := hmirrors.clearMarks.request? (hsetting.parallels R) World.Twins.bridge op
  unfold Machine.call?
  rw [hlimit]
  generalize machine.clearMarks.request? setting op = asked at hrequest ⊢
  generalize other.clearMarks.request? setting op = asked' at hrequest ⊢
  cases machine.limitReached? setting with
  | some limit => exact .none
  | none =>
    cases hrequest with
    | none => exact .none
    | @some asked asked' hasked =>
      obtain ⟨request, found⟩ := asked
      obtain ⟨request', found'⟩ := asked'
      obtain ⟨hrequest, hfound⟩ := hasked
      dsimp only at hrequest hfound ⊢
      have hargs := (Value.matchesItems_iff.2 (List.forall₂_take request.argc hfound.stack)).tagged_eq
        fun _ _ => hfound.world.objects.tagged_eq
      have hreceiver : request'.receiver.map (Value.tagged found'.world.objects) =
          request.receiver.map (Value.tagged found.world.objects) := by
        have hreceiver := hrequest.receiver
        generalize request.receiver = receiver at hreceiver ⊢
        generalize request'.receiver = receiver' at hreceiver ⊢
        cases hreceiver with
        | none => rfl
        | some hvalue => exact congrArg some (hvalue.tagged_eq fun _ _ => hfound.world.objects.tagged_eq)
      rw [← hfound.stack.length_eq, hrequest.argc]
      split
      · exact .none
      · refine .some ?_
        rw [Call.view, Call.view, hrequest.name, hargs, hreceiver]

end Machine

namespace Runner

structure View (H : Type) where
  error : Option RunError
  execution : ExecutionView
  status : StatusView
  host : H

def view (ended : Option RunError × Runner H × World H) : View H where
  error := ended.1
  execution := ended.2.1.execution.view ended.2.2.objects
  status := ended.2.1.status.view ended.2.2.objects
  host := ended.2.2.host

theorem view_absorb_eq (runner runner' : Runner H) {outcome other : Outcome H}
    (h : outcome.Reflects K other) :
    view (other.error?, runner'.absorb other) = view (outcome.error?, runner.absorb outcome) := by
  cases h with
  | @ok machine other h =>
    obtain ⟨R, hmirrors, hsteps⟩ := h
    have htwins := hmirrors.world.objects
    change View.mk none (other.execution.view other.world.objects)
      (other.status.view other.world.objects) other.world.host = View.mk none _ _ _
    rw [htwins.view_eq ⟨hmirrors.execution, hsteps⟩, htwins.status_view_eq hmirrors.status,
      hmirrors.world.host]
    rfl
  | @fail error machine other h =>
    obtain ⟨R, hmirrors, hsteps⟩ := h
    have htwins := hmirrors.world.objects
    have hstatus : { machine.status with running := false }.Matches R
        { other.status with running := false } := { hmirrors.status with running := rfl }
    change View.mk (some error) (other.execution.view other.world.objects)
      ({ other.status with running := false }.view other.world.objects) other.world.host =
      View.mk (some error) _ _ _
    rw [htwins.view_eq ⟨hmirrors.execution, hsteps⟩, htwins.status_view_eq hstatus,
      hmirrors.world.host]
    rfl

end Runner

/-- Every text that is accepted with its objects looked up at once is accepted with lookups on first
use, and the executions look alike. With providers that see in a reference no more than the object
that it stands for, they get the same calls and runs end alike, as long as the operators on the way
are settled: no two references to different places are equal by their ids only, and no object becomes
text before it was looked up. -/
theorem lazy_run_goes_the_eager_way {sources : Sources} {store after : Objects} {text : String}
    {eager : Execution} (hfaithful : sources.Faithful K) (howns : store.Owns K)
    (hgives : (Execution.ofSnapshot sources.atOnce text).Gives store eager after) :
    ∃ lazy after', (Execution.ofSnapshot sources.onUse text).Gives store lazy after' ∧
      lazy.view after' = eager.view after ∧
      ∀ {H : Type} (runner : Runner H) (host : H), runner.setting.LooksThrough K →
        (∀ reached, Machine.Reaches runner.setting ⟨lazy, .started, ⟨after', host⟩⟩ reached →
          reached.Settled) →
        ∀ fuel,
          (Machine.calls runner.setting fuel ⟨lazy, .started, ⟨after', host⟩⟩).map Call.view =
            (Machine.calls runner.setting fuel ⟨eager, .started, ⟨after, host⟩⟩).map Call.view ∧
          (runner.resume fuel ⟨after', host⟩ (some lazy)).map Runner.view =
            (runner.resume fuel ⟨after, host⟩ (some eager)).map Runner.view := by
  obtain ⟨R, lazy, after', hgives', htwins, hmatches⟩ :=
    Execution.exists_ofSnapshot_onUse hfaithful howns hgives
  refine ⟨lazy, after', hgives', htwins.view_eq hmatches, ?_⟩
  intro H runner host hlooks hsettled fuel
  have hreflects : Machine.Reflects K (H := H) ⟨eager, .started, ⟨after, host⟩⟩
      ⟨lazy, .started, ⟨after', host⟩⟩ :=
    ⟨R, ⟨hmatches.toResembles, ⟨rfl, rfl, rfl, .none⟩, htwins, rfl⟩, hmatches.steps⟩
  have hlockstep := Machine.lockstep_reflects hlooks
  refine ⟨List.map_eq_of_forall₂ (hlockstep.calls (fun h => h.1.call? hlooks) ⟨hreflects, hsettled⟩ fuel)
    fun _ _ hcall => hcall.symm, ?_⟩
  have hended := hlockstep.runFor ⟨hreflects, hsettled⟩ fuel
  have hresumes (execution : Execution) : runner.Resumes (some execution) execution := rfl
  rw [(hresumes lazy).resume_eq_map, (hresumes eager).resume_eq_map, Option.map_map, Option.map_map]
  generalize Machine.runFor runner.setting fuel ⟨eager, .started, ⟨after, host⟩⟩ = ended at hended ⊢
  generalize Machine.runFor runner.setting fuel ⟨lazy, .started, ⟨after', host⟩⟩ = ended' at hended ⊢
  cases hended with
  | none => rfl
  | some houtcome => exact congrArg some (Runner.view_absorb_eq _ _ houtcome)

def Value.accountLater (cell : Nat) : Value := .object (.lazy cell "account:1")

theorem Sources.faithful_accounts : Sources.Faithful (fun _ => False) ⟨[.accounts], [], false⟩ := by
  have hanswer {id object} (h : Resolver.answer? [.accounts] id = some object) :
      object = Resolver.accounts.resolve id := by
    obtain ⟨resolver, hfind, rfl⟩ := Option.map_eq_some_iff.1 h
    cases List.mem_singleton.1 (List.mem_of_find?_eq_some hfind)
    rfl
  refine ⟨fun h => ?_, fun h => ?_, fun h => ?_, nofun⟩
  · rw [hanswer h]
    rfl
  · cases h.symm.trans (Resolver.serial?_accounts _)
  · rw [hanswer h]
    exact nofun

theorem looksThrough_echoing (K : ObjectRef Value → Prop) : echoing.LooksThrough K where
  functions := by
    intro provider hprovider R name context context' args args' world world' _ hargs hworld
    cases List.mem_singleton.1 hprovider
    refine ⟨R, fun _ _ => id, ⟨.nil, .ok (.value ?_)⟩, hworld⟩
    cases hargs with
    | nil => rfl
    | cons hvalue _ => exact hvalue
  methods := nofun

namespace Execution

def questioning : Execution :=
  pair ⟨#[⟨.pushVariable "x", none⟩, ⟨.call "ask" 1 0, none⟩, ⟨.pushResult, none⟩,
    ⟨.pushVariable "x", none⟩, ⟨.operate .eq, none⟩, ⟨.setVariable "same", none⟩], []⟩
    (.account 0) (.account 0)

theorem tidy_questioning : questioning.program.Tidy := by
  have hcompile : (Node.root [.assign "same"
      (.binary .eq (.call "ask" [.ident "x" none] none) (.ident "x" none) none) none] none).compile
        [] = .ok questioning.program := rfl
  exact Program.tidy_of_compile hcompile

theorem keepable_questioning : questioning.Keepable .empty :=
  keepable_pair (by decide) (keepable_account 0) (keepable_account 0)

section

variable {envelope : Snapshot.Envelope}
  (hwrite : Snapshot.writeExecution .empty questioning = .ok envelope)
include hwrite

theorem levels_questioning : envelope.json.levels ≤ Json.maxLevels := by
  cases hwrite
  decide

theorem restore_questioning : (Snapshot.restoreExecution ⟨[.accounts], [], false⟩ 0 envelope).Gives
      (Objects.empty.addSource [.accounts]).2 (pair questioning.program (.account 0) (.account 1))
      ⟨2, #[⟨[.accounts], 2⟩], #[]⟩ := by
  cases hwrite
  rfl

theorem restore_questioning_later :
    (Snapshot.restoreExecution ⟨[.accounts], [], true⟩ 0 envelope).Gives
      (Objects.empty.addSource [.accounts]).2
      (pair questioning.program (.accountLater 0) (.accountLater 1))
      ⟨0, #[⟨[.accounts], 0⟩], #[⟨0, none⟩, ⟨0, none⟩]⟩ := by
  cases hwrite
  rfl

end

end Execution

open Execution in
theorem lazy_run_goes_the_eager_way_questioning :
    ∃ text eager after lazy after', questioning.snapshot .empty = .ok text ∧
      (ofSnapshot ⟨[.accounts], [], false⟩ text).Gives .empty eager after ∧
      (ofSnapshot ⟨[.accounts], [], true⟩ text).Gives .empty lazy after' ∧
      lazy.view after' = eager.view after ∧ ∀ fuel,
        ((Runner.ofSetting echoing).resume fuel ⟨after', ()⟩ (some lazy)).map Runner.view =
        ((Runner.ofSetting echoing).resume fuel ⟨after, ()⟩ (some eager)).map Runner.view := by
  obtain ⟨envelope, hwrite, hsnapshot, hread⟩ := exists_text tidy_questioning keepable_questioning
  have hlevels := levels_questioning hwrite
  have hgives : (ofSnapshot ⟨[.accounts], [], false⟩ envelope.json.text).Gives .empty _ _ :=
    hread hlevels (restore_questioning hwrite)
  have hgives' : (ofSnapshot ⟨[.accounts], [], true⟩ envelope.json.text).Gives .empty _ _ :=
    hread hlevels (restore_questioning_later hwrite)
  have howns : Objects.empty.Owns (fun _ => False) := nofun
  obtain ⟨lazy, after', hsame, hview, hruns⟩ :=
    lazy_run_goes_the_eager_way Sources.faithful_accounts howns hgives
  obtain ⟨rfl, rfl⟩ := hgives'.unique hsame
  refine ⟨_, _, _, _, _, hsnapshot, hgives, hgives', hview,
    fun fuel => (hruns (Runner.ofSetting echoing) () (looksThrough_echoing _) ?_ fuel).2⟩
  -- Only the comparison has to be looked at, and there a cell meets itself.
  iterate 4 refine Machine.forall_settled_of_step rfl (by rintro _ ⟨⟩) rfl ?_
  refine Machine.Reaches.forall_of_step ?_ rfl rfl ?_
  · intro pos op left right rest hnext hstack
    cases hnext
    cases hstack
    intro pair hpair _
    cases List.mem_singleton.1 hpair
    rfl
  refine Machine.forall_settled_of_step rfl (by rintro _ ⟨⟩) rfl ?_
  exact Machine.Reaches.forall_of_done (Machine.settled_of_next?_eq_none rfl) rfl

namespace Execution

variable {envelope : Snapshot.Envelope}

theorem restore_sharing_later (hwrite : Snapshot.writeExecution .empty sharing = .ok envelope) :
    (Snapshot.restoreExecution ⟨[.accounts], [], true⟩ 0 envelope).Gives
      (Objects.empty.addSource [.accounts]).2
      (pair sharing.program (.accountLater 0) (.accountLater 1))
      ⟨0, #[⟨[.accounts], 0⟩], #[⟨0, none⟩, ⟨0, none⟩]⟩ := by
  cases hwrite
  rfl

def showing : Execution :=
  pair ⟨#[⟨.pushValue (.str ""), none⟩, ⟨.pushVariable "x", none⟩, ⟨.operate .concat, none⟩,
    ⟨.setVariable "shown", none⟩], []⟩ (.list [.account 0]) .null

theorem tidy_showing : showing.program.Tidy := by
  have hcompile : (Node.root [.assign "shown"
      (.binary .concat (.str "" none) (.ident "x" none) none) none] none).compile [] =
        .ok showing.program := rfl
  exact Program.tidy_of_compile hcompile

theorem keepable_showing : showing.Keepable .empty :=
  keepable_pair (by decide) ⟨⟨(keepable_account 0).1, trivial⟩, ⟨(keepable_account 0).2, trivial⟩⟩
    ⟨trivial, trivial⟩

section

variable (hwrite : Snapshot.writeExecution .empty showing = .ok envelope)
include hwrite

theorem levels_showing : envelope.json.levels ≤ Json.maxLevels := by
  cases hwrite
  decide

theorem restore_showing : (Snapshot.restoreExecution ⟨[.accounts], [], false⟩ 0 envelope).Gives
      (Objects.empty.addSource [.accounts]).2 (pair showing.program (.list [.account 0]) .null)
      ⟨1, #[⟨[.accounts], 1⟩], #[]⟩ := by
  cases hwrite
  rfl

theorem restore_showing_later : (Snapshot.restoreExecution ⟨[.accounts], [], true⟩ 0 envelope).Gives
      (Objects.empty.addSource [.accounts]).2 (pair showing.program (.list [.accountLater 0]) .null)
      ⟨0, #[⟨[.accounts], 0⟩], #[⟨0, none⟩]⟩ := by
  cases hwrite
  rfl

end

end Execution

def Runner.leaves (runner : Runner Unit) (objects : Objects) (execution : Execution) (name : String) :
    Option (Option Value) :=
  (runner.resume 4 ⟨objects, ()⟩ (some execution)).map (·.2.1.execution.globals.get? name)

open Execution in
/-- One account in two variables differs from itself when it was looked up for each of them, and equals
itself by its id when lookups wait for the first use. In a list it is shown by its label, and as a
reference that nobody looked up. -/
theorem references_told_from_objects :
    (∃ text eager after lazy after', sharing.snapshot .empty = .ok text ∧
      (ofSnapshot ⟨[.accounts], [], false⟩ text).Gives .empty eager after ∧
      (ofSnapshot ⟨[.accounts], [], true⟩ text).Gives .empty lazy after' ∧
      (Runner.ofSetting echoing).leaves after eager "same" = some (some (.bool false)) ∧
      (Runner.ofSetting echoing).leaves after' lazy "same" = some (some (.bool true))) ∧
    ∃ text eager after lazy after', showing.snapshot .empty = .ok text ∧
      (ofSnapshot ⟨[.accounts], [], false⟩ text).Gives .empty eager after ∧
      (ofSnapshot ⟨[.accounts], [], true⟩ text).Gives .empty lazy after' ∧
      (Runner.ofSetting echoing).leaves after eager "shown" = some (some (.str "[account:1]")) ∧
      (Runner.ofSetting echoing).leaves after' lazy "shown" =
        some (some (.str "[<unresolved account:1>]")) := by
  constructor
  · obtain ⟨envelope, hwrite, hsnapshot, hread⟩ := exists_text tidy_sharing keepable_sharing
    have hlevels := levels_sharing hwrite
    exact ⟨_, _, _, _, _, hsnapshot, hread hlevels (restore_sharing hwrite),
      hread hlevels (restore_sharing_later hwrite), rfl, rfl⟩
  · obtain ⟨envelope, hwrite, hsnapshot, hread⟩ := exists_text tidy_showing keepable_showing
    have hlevels := levels_showing hwrite
    exact ⟨_, _, _, _, _, hsnapshot, hread hlevels (restore_showing hwrite),
      hread hlevels (restore_showing_later hwrite), rfl, rfl⟩

end DurableScript
