import DurableScript.Proofs.Correspondence
import DurableScript.Proofs.Requests

/-!
Two machines in step. Their executions are the same up to a relation of the objects that they hold,
and their stores answer related references alike. Every instruction that asks no provider then takes
them to machines that are in step again.
-/

namespace DurableScript

inductive Agree {ε α β : Type} (P : α → β → Prop) : Except ε α → Except ε β → Prop where
  | ok {a : α} {b : β} : P a b → Agree P (.ok a) (.ok b)
  | error (e : ε) : Agree P (.error e) (.error e)

variable {α β : Type} {P : α → β → Prop}

theorem Agree.map {ε α' β' : Type} {Q : α' → β' → Prop} {f : α → α'} {g : β → β'} {x : Except ε α}
    {y : Except ε β} (h : Agree P x y) (hfg : ∀ a b, P a b → Q (f a) (g b)) :
    Agree Q (x.map f) (y.map g) := by
  cases h with
  | ok h => exact .ok (hfg _ _ h)
  | error e => exact .error e

theorem Agree.bind {ε α' β' : Type} {Q : α' → β' → Prop} {f : α → Except ε α'} {g : β → Except ε β'}
    {x : Except ε α} {y : Except ε β} (h : Agree P x y) (hfg : ∀ a b, P a b → Agree Q (f a) (g b)) :
    Agree Q (x >>= f) (y >>= g) := by
  cases h with
  | ok h => exact hfg _ _ h
  | error e => exact .error e

theorem rel_getElem? {as : List α} {bs : List β} (h : List.Forall₂ P as bs) (index : Nat) :
    Option.Rel P as[index]? bs[index]? := by
  induction h generalizing index with
  | nil => exact .none
  | cons hab _ ih =>
    cases index with
    | zero => exact .some hab
    | succ index => exact ih index

variable {H H' : Type} {R R' : ObjectRef Value → ObjectRef Value → Prop}
  {S : World H → World H' → Prop}

/-! Frames and executions. -/

namespace Frame.Matches

variable {frame other : Frame}

theorem mono (h : frame.Matches R other) (hR : ∀ r q, R r q → R' r q) : frame.Matches R' other where
  vars := h.vars.imp fun _ _ hentry => ⟨hentry.1, hentry.2.mono hR⟩
  stack := h.stack.imp fun _ _ hvalue => hvalue.mono hR
  result := h.result.mono hR
  returnTo := h.returnTo

theorem get? (h : frame.Matches R other) (name : String) :
    Option.Rel (Value.Matches R) (frame.get? name) (other.get? name) :=
  Table.related_of_forall₂ h.vars name

theorem set (h : frame.Matches R other) (name : String) {value value' : Value}
    (hvalue : value.Matches R value') : (frame.set name value).Matches R (other.set name value') :=
  { h with vars := Table.forall₂_insert h.vars name hvalue }

theorem push (h : frame.Matches R other) {value value' : Value} (hvalue : value.Matches R value') :
    (frame.push value).Matches R (other.push value') := { h with stack := .cons hvalue h.stack }

theorem eq (h : frame.Matches Eq other) : other = frame := by
  obtain ⟨vars, stack, result, returnTo⟩ := frame
  obtain ⟨vars', stack', result', returnTo'⟩ := other
  obtain ⟨hvars, hstack, hresult, rfl⟩ := h
  cases (Value.matchesFields_iff.2 hvars).eq
  cases (Value.matchesItems_iff.2 hstack).eq
  cases hresult.eq
  rfl

end Frame.Matches

namespace Execution.Resembles

variable {execution other : Execution}

theorem eq (h : execution.Resembles Eq other) :
    other = { execution with steps := other.steps } := by
  obtain ⟨program, globals, calls, pc, steps, mark⟩ := execution
  obtain ⟨program', globals', calls', pc', steps', mark'⟩ := other
  obtain ⟨rfl, hglobals, hcalls, rfl, rfl⟩ := h
  have hsame : List.Forall₂ Eq calls calls' := hcalls.imp fun _ _ h => h.eq.symm
  rw [List.forall₂_eq_eq_eq] at hsame
  subst hsame
  cases hglobals.eq
  rfl

section

variable (h : execution.Resembles R other)
include h

theorem mono (hR : ∀ r q, R r q → R' r q) : execution.Resembles R' other :=
  { h with globals := h.globals.mono hR, calls := h.calls.imp fun _ _ hcall => hcall.mono hR }

theorem frame : execution.frame.Matches R other.frame := by
  obtain ⟨_, globals, calls, _, _, _⟩ := execution
  obtain ⟨_, globals', calls', _, _, _⟩ := other
  obtain ⟨-, hglobals, hcalls, -, -⟩ := h
  cases hcalls with
  | nil => exact hglobals
  | cons hcall _ => exact hcall

theorem modifyFrame {f g : Frame → Frame}
    (hfg : ∀ frame frame', frame.Matches R frame' → (f frame).Matches R (g frame')) :
    (execution.modifyFrame f).Resembles R (other.modifyFrame g) := by
  obtain ⟨_, globals, calls, _, _, _⟩ := execution
  obtain ⟨_, globals', calls', _, _, _⟩ := other
  obtain ⟨hprogram, hglobals, hcalls, hpc, hmark⟩ := h
  cases hcalls with
  | nil => exact ⟨hprogram, hfg _ _ hglobals, .nil, hpc, hmark⟩
  | cons hcall hcalls => exact ⟨hprogram, hglobals, .cons (hfg _ _ hcall) hcalls, hpc, hmark⟩

theorem dropOperands (count : Nat) :
    (execution.dropOperands count).Resembles R (other.dropOperands count) :=
  h.modifyFrame fun _ _ hframe =>
    ⟨hframe.vars, List.forall₂_drop count hframe.stack, hframe.result, hframe.returnTo⟩

theorem lookup? (name : String) :
    Option.Rel (Value.Matches R) (execution.lookup? name) (other.lookup? name) := by
  have hlocal := h.frame.get? name
  unfold Execution.lookup?
  generalize execution.frame.get? name = found at hlocal ⊢
  generalize other.frame.get? name = found' at hlocal ⊢
  cases hlocal with
  | none => exact h.globals.get? name
  | some hvalue => exact .some hvalue

theorem setLocal (name : String) {value value' : Value} (hvalue : value.Matches R value') :
    (execution.setLocal name value).Resembles R (other.setLocal name value') :=
  h.modifyFrame fun _ _ hframe => hframe.set name hvalue

theorem setGlobal (name : String) {value value' : Value} (hvalue : value.Matches R value') :
    (execution.setGlobal name value).Resembles R (other.setGlobal name value') :=
  { h with globals := h.globals.set name hvalue }

theorem assign (name : String) {value value' : Value} (hvalue : value.Matches R value') :
    (execution.assign name value).Resembles R (other.assign name value') := by
  unfold Execution.assign
  rw [(Table.related_of_forall₂ h.globals.vars).contains_eq name]
  split
  · exact h.setGlobal name hvalue
  · exact h.setLocal name hvalue

theorem depth_eq : other.depth = execution.depth := by
  rw [depth, depth, h.calls.length_eq]

theorem isFinished_eq :
    other.isFinished = execution.isFinished := by rw [isFinished, isFinished, h.program, h.pc]

theorem instruction?_eq : other.instruction? = execution.instruction? := by
  rw [instruction?, instruction?, h.program, h.pc]

theorem setCallerResult {value value' : Value} (hvalue : value.Matches R value') :
    (Machine.setCallerResult execution value).Resembles R (Machine.setCallerResult other value') := by
  obtain ⟨_, globals, calls, _, _, _⟩ := execution
  obtain ⟨_, globals', calls', _, _, _⟩ := other
  obtain ⟨hprogram, hglobals, hcalls, hpc, hmark⟩ := h
  cases hcalls with
  | nil => exact ⟨hprogram, { hglobals with result := hvalue }, .nil, hpc, hmark⟩
  | cons hcall hcalls =>
    cases hcalls with
    | nil => exact ⟨hprogram, { hglobals with result := hvalue }, .cons hcall .nil, hpc, hmark⟩
    | cons hcaller hcalls =>
      exact ⟨hprogram, hglobals, .cons hcall (.cons { hcaller with result := hvalue } hcalls), hpc,
        hmark⟩

end

end Execution.Resembles

/-! Objects and the host's side. -/

structure HostObject.Matches (R : ObjectRef Value → ObjectRef Value → Prop)
    (object other : HostObject Value) : Prop where
  typeName : other.typeName = object.typeName
  persisted : other.persisted = object.persisted
  properties : Value.MatchesFields R object.properties other.properties
  label : other.label = object.label

theorem HostObject.Matches.mono {object other : HostObject Value} (h : object.Matches R other)
    (hR : ∀ r q, R r q → R' r q) : object.Matches R' other :=
  { h with properties := h.properties.imp fun r _ q _ => hR r q }

structure Status.Matches (R : ObjectRef Value → ObjectRef Value → Prop) (status other : Status) :
    Prop where
  running : other.running = status.running
  reason : other.reason = status.reason
  waitingFor : other.waitingFor = status.waitingFor
  extra : Option.Rel (Value.Matches R) status.extra other.extra

inductive HostWrite.Matches (R : ObjectRef Value → ObjectRef Value → Prop) :
    HostWrite → HostWrite → Prop where
  | toFrame {value value' : Value} (name : String) :
      value.Matches R value' → Matches R (.toFrame name value) (.toFrame name value')
  | toGlobals {value value' : Value} (name : String) :
      value.Matches R value' → Matches R (.toGlobals name value) (.toGlobals name value')

inductive Answer.Matches (R : ObjectRef Value → ObjectRef Value → Prop) : Answer → Answer → Prop where
  | value {result result' : Value} :
      result.Matches R result' → Matches R (.value result) (.value result')
  | before {extra extra' : Option Value} :
      Option.Rel (Value.Matches R) extra extra' → Matches R (.before extra) (.before extra')
  | after {result result' : Value} {extra extra' : Option Value} :
      result.Matches R result' → Option.Rel (Value.Matches R) extra extra' →
      Matches R (.after result extra) (.after result' extra')

structure Reply.Matches (R : ObjectRef Value → ObjectRef Value → Prop) (reply other : Reply) :
    Prop where
  writes : List.Forall₂ (HostWrite.Matches R) reply.writes other.writes
  outcome : Agree (Answer.Matches R) reply.outcome other.outcome

theorem Status.Matches.mono {status other : Status} (h : status.Matches R other)
    (hR : ∀ r q, R r q → R' r q) : status.Matches R' other := by
  obtain ⟨hrunning, hreason, hwaiting, hextra⟩ := h
  refine ⟨hrunning, hreason, hwaiting, ?_⟩
  generalize status.extra = extra at hextra ⊢
  generalize other.extra = extra' at hextra ⊢
  cases hextra with
  | none => exact .none
  | some hvalue => exact .some (hvalue.mono hR)

theorem Status.Matches.eq {status other : Status} (h : status.Matches Eq other) : other = status := by
  obtain ⟨running, reason, waitingFor, extra⟩ := status
  obtain ⟨running', reason', waitingFor', extra'⟩ := other
  obtain ⟨rfl, rfl, rfl, hextra⟩ := h
  cases hextra with
  | none => rfl
  | some hvalue =>
    cases hvalue.eq
    rfl

theorem Execution.Resembles.writes {execution other : Execution} (h : execution.Resembles R other)
    {writes writes' : List HostWrite} (hwrites : List.Forall₂ (HostWrite.Matches R) writes writes') :
    (writes.foldl HostWrite.run execution).Resembles R (writes'.foldl HostWrite.run other) := by
  induction hwrites generalizing execution other with
  | nil => exact h
  | cons hwrite _ ih =>
    cases hwrite with
    | toFrame name hvalue => exact ih (h.setLocal name hvalue)
    | toGlobals name hvalue => exact ih (h.setGlobal name hvalue)

/-- What worlds have to do for their machines to stay in step: related references give matching
objects, and leave worlds that are related again. -/
def World.Bridge (R : ObjectRef Value → ObjectRef Value → Prop) (S : World H → World H' → Prop) :
    Prop :=
  ∀ {world : World H} {other : World H'} {r q : ObjectRef Value}, S world other → R r q →
    Agree (fun found found' => found.1.Matches R found'.1 ∧
        S ⟨found.2, world.host⟩ ⟨found'.2, other.host⟩)
      (world.objects.resolve r) (other.objects.resolve q)

/-! Machines. -/

/-- The machines are in step: they differ in related references, in the steps they have counted and
in their worlds, which are related. -/
structure Machine.Mirrors (R : ObjectRef Value → ObjectRef Value → Prop)
    (S : World H → World H' → Prop) (machine : Machine H) (other : Machine H') : Prop where
  execution : machine.execution.Resembles R other.execution
  status : machine.status.Matches R other.status
  world : S machine.world other.world

abbrev Outcome.Mirrors (R : ObjectRef Value → ObjectRef Value → Prop)
    (S : World H → World H' → Prop) : Outcome H → Outcome H' → Prop :=
  Outcome.Rel (Machine.Mirrors R S) (Machine.Mirrors R S)

theorem Outcome.Mirrors.atPos {outcome : Outcome H} {other : Outcome H'}
    (h : outcome.Mirrors R S other) (pos : Option SourcePos) :
    (outcome.atPos pos).Mirrors R S (other.atPos pos) := by
  cases h with
  | ok h => exact .ok h
  | fail error h => exact .fail _ h

namespace Machine.Mirrors

variable {machine : Machine H} {other : Machine H'} {value value' : Value}

section

variable (h : machine.Mirrors R S other)
include h

theorem withExecution {execution execution' : Execution}
    (hexecution : execution.Resembles R execution') :
    Mirrors R S { machine with execution := execution } { other with execution := execution' } :=
  ⟨hexecution, h.status, h.world⟩

theorem stack : List.Forall₂ (Value.Matches R) machine.stack other.stack := h.execution.frame.stack

theorem modifyFrame {f g : Frame → Frame}
    (hfg : ∀ frame frame', frame.Matches R frame' → (f frame).Matches R (g frame')) :
    (machine.modifyFrame f).Mirrors R S (other.modifyFrame g) :=
  { h with execution := h.execution.modifyFrame hfg }

theorem setStack {stack stack' : List Value}
    (hstack : List.Forall₂ (Value.Matches R) stack stack') :
    (machine.setStack stack).Mirrors R S (other.setStack stack') :=
  h.modifyFrame fun _ _ hframe => { hframe with stack := hstack }

theorem push (hvalue : value.Matches R value') :
    (machine.push value).Mirrors R S (other.push value') :=
  h.modifyFrame fun _ _ hframe => hframe.push hvalue

theorem setResult (hvalue : value.Matches R value') :
    (machine.setResult value).Mirrors R S (other.setResult value') :=
  h.modifyFrame fun _ _ hframe => { hframe with result := hvalue }

theorem goTo (index : Nat) : (machine.goTo index).Mirrors R S (other.goTo index) :=
  { h with execution := { h.execution with pc := rfl } }

theorem advance : machine.advance.Mirrors R S other.advance := by
  unfold Machine.advance
  rw [h.execution.pc]
  exact h.goTo _

theorem pause (reason : PauseReason) : (machine.pause reason).Mirrors R S (other.pause reason) :=
  { h with status := { h.status with running := rfl, reason := rfl } }

theorem clearMarks : machine.clearMarks.Mirrors R S other.clearMarks where
  execution := { h.execution with lastInterrupt := rfl }
  status := { h.status with waitingFor := rfl }
  world := h.world

theorem countStep : machine.countStep.Mirrors R S other.countStep :=
  { h with execution := { h.execution with } }

theorem settle : machine.settle.Mirrors R S other.settle := by
  unfold Machine.settle
  rw [h.execution.isFinished_eq]
  split
  · exact { h with status := { h.status with running := rfl, waitingFor := rfl } }
  · exact h

theorem next?_eq : other.next? = machine.next? := by
  rw [next?, next?, h.status.running, h.execution.instruction?_eq]

theorem interrupted (kind : InterruptKind) {extra extra' : Option Value}
    (hextra : Option.Rel (Value.Matches R) extra extra') :
    (machine.interrupted kind extra).Mirrors R S (other.interrupted kind extra') where
  execution := { h.execution with lastInterrupt := rfl }
  status := { h.status with running := rfl, reason := rfl, extra := hextra }
  world := h.world

theorem failWith (fault : RunFault) :
    (machine.failWith fault).Mirrors R S (other.failWith fault) := .fail _ h

theorem jump (target : Nat) : (machine.jump target).Mirrors R S (other.jump target) := by
  unfold Machine.jump
  simp only [h.execution.program]
  split
  · exact h.failWith _
  · exact .ok (h.goTo target)

theorem popThen {next : Value → Machine H → Outcome H} {next' : Value → Machine H' → Outcome H'}
    (hnext : ∀ value value' rest rest', machine.stack = value :: rest →
      other.stack = value' :: rest' → value.Matches R value' →
      (machine.setStack rest).Mirrors R S (other.setStack rest') →
      (next value (machine.setStack rest)).Mirrors R S (next' value' (other.setStack rest'))) :
    (machine.popThen next).Mirrors R S (other.popThen next') := by
  have hstack := h.stack
  unfold Machine.popThen
  split
  · next hnil =>
    rw [hnil] at hstack
    rw [List.forall₂_nil_left_iff.1 hstack]
    exact h.failWith _
  · next value rest hcons =>
    rw [hcons] at hstack
    obtain ⟨value', rest', hvalue, hrest, hcons'⟩ := List.forall₂_cons_left_iff.1 hstack
    rw [hcons']
    exact hnext value value' rest rest' hcons hcons' hvalue (h.setStack hrest)

theorem popArgsThen {argc : Nat} {next : List Value → Machine H → Outcome H}
    {next' : List Value → Machine H' → Outcome H'}
    (hnext : ∀ args args' rest rest', List.Forall₂ (Value.Matches R) args args' →
      (machine.setStack rest).Mirrors R S (other.setStack rest') →
      (next args (machine.setStack rest)).Mirrors R S (next' args' (other.setStack rest'))) :
    (machine.popArgsThen argc next).Mirrors R S (other.popArgsThen argc next') := by
  unfold Machine.popArgsThen
  rw [← h.stack.length_eq]
  split
  · exact (h.setStack .nil).failWith _
  · exact hnext _ _ _ _ (List.forall₂_take argc h.stack) (h.setStack (List.forall₂_drop argc h.stack))

theorem callProcedure {setting : Setting H} {setting' : Setting H'}
    (hdepth : setting'.limits.maxCallDepth = setting.limits.maxCallDepth) (entry argc : Nat) :
    (callProcedure setting machine entry argc).Mirrors R S
      (callProcedure setting' other entry argc) := by
  unfold Machine.callProcedure
  simp only [hdepth, h.execution.depth_eq]
  split
  · exact h.failWith _
  · refine h.popArgsThen fun args args' rest rest' hargs h => ?_
    obtain ⟨hprogram, hglobals, hcalls, hpc, hmark⟩ := h.execution
    refine jump (h.withExecution ?_) entry
    refine ⟨hprogram, hglobals, .cons ?_ hcalls, hpc, hmark⟩
    exact ⟨.nil, List.rel_reverse hargs, rfl, by rw [hpc]⟩

theorem leave (hvalue : value.Matches R value') :
    (machine.leave value).Mirrors R S (other.leave value') := by
  have hcaller := h.execution.setCallerResult hvalue
  unfold Machine.leave
  simp only [hcaller.program]
  generalize setCallerResult machine.execution value = execution at hcaller ⊢
  generalize setCallerResult other.execution value' = execution' at hcaller ⊢
  obtain ⟨_, globals, calls, _, _, _⟩ := execution
  obtain ⟨_, globals', calls', _, _, _⟩ := execution'
  obtain ⟨hprogram, hglobals, hcalls, hpc, hmark⟩ := hcaller
  cases hcalls with
  | nil => exact .ok (((h.withExecution ⟨hprogram, hglobals, .nil, hpc, hmark⟩).goTo _).pause _)
  | cons hcall hcalls =>
    simp only [hcall.returnTo]
    refine jump (h.withExecution ?_) _
    exact ⟨rfl, hglobals, hcalls, hpc, hmark⟩

end

/-! Lookups. -/

section Lookups

variable (hbridge : World.Bridge R S) (h : machine.Mirrors R S other)

include hbridge h

theorem resolve {r q : ObjectRef Value} (href : R r q) :
    Agree (fun found found' => found.1.Matches R found'.1 ∧ found.2.Mirrors R S found'.2)
      (machine.resolve r) (other.resolve q) := by
  have hresolve := hbridge h.world href
  unfold Machine.resolve
  generalize machine.world.objects.resolve r = found at hresolve ⊢
  generalize other.world.objects.resolve q = found' at hresolve ⊢
  cases hresolve with
  | ok hfound => exact .ok ⟨hfound.1, ⟨h.execution, h.status, hfound.2⟩⟩
  | error id => exact .error _

theorem readVariable (name : String) :
    Agree (fun found found' => found.1.Matches R found'.1 ∧ found.2.Mirrors R S found'.2)
      (machine.readVariable name) (other.readVariable name) := by
  have hlookup := h.execution.lookup? name
  unfold Machine.readVariable
  generalize machine.execution.lookup? name = found at hlookup ⊢
  generalize other.execution.lookup? name = found' at hlookup ⊢
  cases hlookup with
  | none => exact .error _
  | @some value value' hvalue =>
    cases value with
    | object r =>
      obtain ⟨q, rfl, href⟩ := hvalue
      exact (h.resolve hbridge href).map fun _ _ hfound => ⟨⟨q, rfl, href⟩, hfound.2⟩
    | list | record =>
      obtain ⟨_, rfl, hitems⟩ := hvalue
      exact .ok ⟨⟨_, rfl, hitems⟩, h⟩
    | null | bool | int | float | str =>
      cases hvalue
      exact .ok ⟨rfl, h⟩

omit hbridge h in
theorem propertyIn_agree {fields fields' : List (String × Value)}
    (h : Value.MatchesFields R fields fields') (name : String) :
    Agree (Value.Matches R) (propertyIn fields name) (propertyIn fields' name) := by
  have hfound := h.find? name
  unfold propertyIn
  generalize Table.find? name fields = found at hfound ⊢
  generalize Table.find? name fields' = found' at hfound ⊢
  cases hfound with
  | none => exact .error _
  | some hvalue => exact .ok hvalue

theorem property (name : String) {value value' : Value} (hvalue : value.Matches R value') :
    Agree (Value.Matches R) (machine.property name value).1 (other.property name value').1 ∧
      (machine.property name value).2.Mirrors R S (other.property name value').2 := by
  have htype := hvalue.typeName_eq
  cases value with
  | record fields =>
    obtain ⟨_, rfl, hfields⟩ := hvalue
    exact ⟨propertyIn_agree hfields name, h⟩
  | object r =>
    obtain ⟨q, rfl, href⟩ := hvalue
    have hresolve := h.resolve hbridge href
    simp only [Machine.property]
    generalize machine.resolve r = found at hresolve ⊢
    generalize other.resolve q = found' at hresolve ⊢
    cases hresolve with
    | ok hfound => exact ⟨propertyIn_agree hfound.1.properties name, hfound.2⟩
    | error fault => exact ⟨.error _, h⟩
  | list =>
    obtain ⟨_, rfl, -⟩ := hvalue
    exact ⟨.error _, h⟩
  | null | bool | int | float | str =>
    cases hvalue
    exact ⟨.error _, h⟩

theorem receiver (name : String) :
    Agree (fun found found' => found.1.Matches R found'.1 ∧ found'.2.1 = found.2.1 ∧
      found.2.2.Mirrors R S found'.2.2) (machine.receiver name) (other.receiver name) := by
  have hread := h.readVariable hbridge name
  unfold Machine.receiver
  generalize machine.readVariable name = found at hread ⊢
  generalize other.readVariable name = found' at hread ⊢
  cases hread with
  | error fault => cases fault <;> exact .error _
  | @ok found found' hfound =>
    obtain ⟨value, found⟩ := found
    obtain ⟨value', found'⟩ := found'
    obtain ⟨hvalue, h⟩ := hfound
    cases value with
    | record fields =>
      obtain ⟨_, rfl, hfields⟩ := hvalue
      exact .ok ⟨⟨_, rfl, hfields⟩, rfl, h⟩
    | object r =>
      obtain ⟨q, rfl, href⟩ := hvalue
      exact (h.resolve hbridge href).map fun _ _ hfound =>
        ⟨⟨q, rfl, href⟩, hfound.1.typeName, hfound.2⟩
    | list =>
      obtain ⟨_, rfl, -⟩ := hvalue
      exact .error _
    | null | bool | int | float | str =>
      cases hvalue
      exact .error _

end Lookups

theorem conclude (hexecution : machine.execution.Resembles R other.execution)
    (hstatus : machine.status.Matches R other.status) {reply reply' : Reply}
    (hreply : reply.Matches R reply') {world : World H} {world' : World H'}
    (hworld : S world world') (restart : Nat) :
    (machine.conclude restart reply world).Mirrors R S (other.conclude restart reply' world') := by
  have hwritten : (machine.written reply.writes world).Mirrors R S
      (other.written reply'.writes world') :=
    ⟨hexecution.writes hreply.writes, hstatus, hworld⟩
  have houtcome := hreply.outcome
  rw [conclude_eq, conclude_eq]
  generalize reply.outcome = outcome at houtcome ⊢
  generalize reply'.outcome = outcome' at houtcome ⊢
  cases houtcome with
  | error error => exact .fail error hwritten
  | ok hanswer =>
    cases hanswer with
    | value hresult => exact .ok (hwritten.setResult hresult).advance
    | after hresult hextra =>
      exact .ok ((hwritten.setResult hresult).advance.interrupted .after hextra)
    | before hextra =>
      have hjump := hwritten.jump restart
      simp only
      generalize (machine.written reply.writes world).jump restart = jumped at hjump ⊢
      generalize (other.written reply'.writes world').jump restart = jumped' at hjump ⊢
      cases hjump with
      | ok hjumped => exact .ok (hjumped.interrupted .before hextra)
      | fail error hjumped => exact .fail error hjumped

end Machine.Mirrors

/-! Functions of the runtime. -/

namespace Builtin

variable {args args' : List Value} {value value' : Value} (function : Builtin)

theorem agree_argument (h : List.Forall₂ (Value.Matches R) args args') (index : Nat) :
    Agree (Value.Matches R) (function.argument args index) (function.argument args' index) := by
  have hfound := rel_getElem? h index
  unfold argument
  rw [h.length_eq]
  generalize args[index]? = found at hfound ⊢
  generalize args'[index]? = found' at hfound ⊢
  cases hfound with
  | none => exact .error _
  | some hvalue => exact .ok hvalue

theorem agree_mismatch {α β : Type} {P : α → β → Prop} (wanted : String)
    (h : value.Matches R value') :
    Agree P (function.mismatch wanted value) (function.mismatch wanted value') := by
  unfold mismatch
  rw [h.typeName_eq]
  exact .error _

theorem agree_items (h : value.Matches R value') :
    Agree (List.Forall₂ (Value.Matches R)) (function.items value) (function.items value') := by
  have hmismatch : Agree (List.Forall₂ (Value.Matches R)) (function.mismatch "list" value)
      (function.mismatch "list" value') := function.agree_mismatch "list" h
  cases value with
  | list items =>
    obtain ⟨_, rfl, hitems⟩ := h
    exact .ok (Value.matchesItems_iff.1 hitems)
  | record fields =>
    obtain ⟨_, rfl, hfields⟩ := h
    exact .ok (List.forall₂_map_left_iff.2 (List.forall₂_map_right_iff.2
      ((Value.matchesFields_iff.1 hfields).imp fun _ _ => And.right)))
  | object =>
    obtain ⟨_, rfl, -⟩ := h
    exact hmismatch
  | null | bool | int | float | str =>
    cases h
    exact hmismatch

theorem agree_signalNamed (h : List.Forall₂ (Value.Matches R) args args') :
    Agree Eq (function.signalNamed args) (function.signalNamed args') := by
  refine (function.agree_argument h 0).bind fun value value' hvalue => ?_
  have hmismatch : Agree Eq (function.mismatch "signal name" value : Except RunFault String)
      (function.mismatch "signal name" value') := function.agree_mismatch _ hvalue
  cases value with
  | list | record | object =>
    obtain ⟨_, rfl, -⟩ := hvalue
    exact hmismatch
  | str name =>
    cases hvalue
    exact .ok rfl
  | null | bool | int | float =>
    cases hvalue
    exact hmismatch

theorem agree_run (h : List.Forall₂ (Value.Matches R) args args') (signals : List String) :
    Agree (Value.Matches R) (function.run args signals) (function.run args' signals) := by
  cases function with
  | arrayCount =>
    refine (arrayCount.agree_argument h 0).bind fun _ _ harray => ?_
    refine (arrayCount.agree_items harray).bind fun _ _ hitems => ?_
    exact .ok (by rw [hitems.length_eq]; rfl)
  | arrayGet =>
    refine (arrayGet.agree_argument h 0).bind fun array array' harray => ?_
    refine (arrayGet.agree_argument h 1).bind fun place place' hplace => ?_
    have hmismatch : Agree (Value.Matches R) (arrayGet.mismatch "int index" place)
        (arrayGet.mismatch "int index" place') := arrayGet.agree_mismatch _ hplace
    cases place with
    | int n =>
      cases hplace
      refine (arrayGet.agree_items harray).bind fun items items' hitems => .ok ?_
      have hfound := rel_getElem? hitems n.toInt.toNat
      generalize items[n.toInt.toNat]? = found at hfound ⊢
      generalize items'[n.toInt.toNat]? = found' at hfound ⊢
      split
      · rfl
      · cases hfound with
        | none => rfl
        | some hvalue => exact hvalue
    | list | record | object =>
      obtain ⟨_, rfl, -⟩ := hplace
      exact hmismatch
    | null | bool | float | str =>
      cases hplace
      exact hmismatch
  | signalExist =>
    refine (signalExist.agree_signalNamed h).bind ?_
    rintro _ _ rfl
    exact .ok rfl
  | signalNotExist =>
    refine (signalNotExist.agree_signalNamed h).bind ?_
    rintro _ _ rfl
    exact .ok rfl

end Builtin

/-! Instructions. -/

/-- The settings have providers for the same names, whose answers are related, and agree in all else
that instructions see. -/
structure Setting.Parallels (R : ObjectRef Value → ObjectRef Value → Prop)
    (A : (CallContext → List Value → World H → Reply × World H) →
      (CallContext → List Value → World H' → Reply × World H') → Prop)
    (setting : Setting H) (other : Setting H') : Prop where
  functions : List.Forall₂ (fun provider provider' => provider'.supports = provider.supports ∧
    ∀ name, A (provider.invoke · name) (provider'.invoke · name)) setting.functions other.functions
  methods : List.Forall₂ (fun provider provider' => provider'.supports = provider.supports ∧
    ∀ name {value value' : Value}, value.Matches R value' →
      A (provider.invoke · value name) (provider'.invoke · value' name))
    setting.methods other.methods
  signals : other.signals = setting.signals
  maxCallDepth : other.limits.maxCallDepth = setting.limits.maxCallDepth

structure Request.Matches (R : ObjectRef Value → ObjectRef Value → Prop)
    (A : (CallContext → List Value → World H → Reply × World H) →
      (CallContext → List Value → World H' → Reply × World H') → Prop)
    (request : Request H) (other : Request H') : Prop where
  receiver : Option.Rel (Value.Matches R) request.receiver other.receiver
  name : other.name = request.name
  argc : other.argc = request.argc
  restart : other.restart = request.restart
  answer : A request.answer other.answer

theorem rel_find? {p : α → Bool} {q : β → Bool} {as : List α} {bs : List β}
    (h : List.Forall₂ P as bs) (hpq : ∀ a b, P a b → q b = p a) :
    Option.Rel P (as.find? p) (bs.find? q) := by
  induction h with
  | nil => exact .none
  | @cons a b _ _ hab _ ih =>
    rw [List.find?_cons, List.find?_cons, hpq a b hab]
    cases p a with
    | true => exact .some hab
    | false => exact ih

namespace Machine.Mirrors

variable {A : (CallContext → List Value → World H → Reply × World H) →
      (CallContext → List Value → World H' → Reply × World H') → Prop}
  {setting : Setting H} {setting' : Setting H'} {machine : Machine H} {other : Machine H'}
  (hsetting : setting.Parallels R A setting') (hbridge : World.Bridge R S)
  (h : machine.Mirrors R S other)

include hsetting hbridge h

theorem request? (op : Op) :
    Option.Rel (fun asked asked' => asked.1.Matches R A asked'.1 ∧ asked.2.Mirrors R S asked'.2)
      (machine.request? setting op) (other.request? setting' op) := by
  cases op with
  | call name argc restart =>
    have hfound := rel_find? (p := fun provider => provider.supports name)
      (q := fun provider => provider.supports name) hsetting.functions
      fun _ _ hprovider => by rw [hprovider.1]
    unfold Machine.request?
    simp only [h.execution.program]
    cases machine.execution.program.entry? name with
    | some entry => exact .none
    | none =>
      generalize setting.functions.find? _ = found at hfound ⊢
      generalize setting'.functions.find? _ = found' at hfound ⊢
      cases hfound with
      | none => exact .none
      | some hprovider => exact .some ⟨⟨.none, rfl, rfl, rfl, hprovider.2 name⟩, h⟩
  | callMethod object name argc restart =>
    have hreceiver := h.receiver hbridge object
    simp only [Machine.request?]
    generalize machine.receiver object = found at hreceiver ⊢
    generalize other.receiver object = found' at hreceiver ⊢
    cases hreceiver with
    | error fault => exact .none
    | @ok found found' hfound =>
      obtain ⟨value, _, found⟩ := found
      obtain ⟨value', typeName, found'⟩ := found'
      obtain ⟨hvalue, rfl, h⟩ := hfound
      simp only at hvalue h ⊢
      have hfound := rel_find? (p := fun provider => provider.supports typeName name)
        (q := fun provider => provider.supports typeName name) hsetting.methods
        fun _ _ hprovider => by rw [hprovider.1]
      generalize setting.methods.find? _ = provider at hfound ⊢
      generalize setting'.methods.find? _ = provider' at hfound ⊢
      cases hfound with
      | none => exact .none
      | some hprovider =>
        exact .some ⟨⟨.some hvalue, rfl, rfl, rfl, hprovider.2 name hvalue⟩, h⟩
  | _ => exact .none

theorem exists_request? {op : Op} {request : Request H} {found : Machine H}
    (hasked : machine.request? setting op = some (request, found)) :
    ∃ request' found', other.request? setting' op = some (request', found') ∧
      request.Matches R A request' ∧ found.Mirrors R S found' := by
  have hrequest := h.request? hsetting hbridge op
  rw [hasked] at hrequest
  generalize other.request? setting' op = asked at hrequest ⊢
  cases hrequest with
  | some hmatches => exact ⟨_, _, rfl, hmatches⟩

theorem request?_eq_none {op : Op} (hquiet : machine.request? setting op = none) :
    other.request? setting' op = none := by
  have hrequest := h.request? hsetting hbridge op
  rw [hquiet] at hrequest
  generalize other.request? setting' op = asked at hrequest ⊢
  cases hrequest
  rfl

theorem execute {op : Op} (hquiet : machine.request? setting op = none)
    (hoperate : ∀ {operator left right rest left' right' rest'}, op = .operate operator →
      machine.stack = right :: left :: rest → other.stack = right' :: left' :: rest' →
      left.Matches R left' → right.Matches R right' →
      Agree (Value.Matches R) (Value.apply machine.world.objects operator left right)
        (Value.apply other.world.objects operator left' right')) :
    (execute setting machine op).Mirrors R S (execute setting' other op) := by
  have hquiet' := h.request?_eq_none hsetting hbridge hquiet
  cases op with
  | pushValue literal => exact .ok (h.push (by cases literal <;> rfl)).advance
  | pushVariable name =>
    have hread := h.readVariable hbridge name
    simp only [Machine.execute]
    generalize machine.readVariable name = found at hread ⊢
    generalize other.readVariable name = found' at hread ⊢
    cases hread with
    | ok hfound => exact .ok (hfound.2.push hfound.1).advance
    | error fault => exact h.failWith fault
  | operate operator =>
    simp only [Machine.execute]
    refine h.popThen fun right right' rest rest' hright hright' hmatch h => ?_
    refine h.popThen fun left left' rest₂ rest₂' hleft hleft' hmatch' h => ?_
    rw [stack_setStack] at hleft hleft'
    have happly := hoperate rfl (hleft ▸ hright) (hleft' ▸ hright') hmatch' hmatch
    have hworld : ((machine.setStack rest).setStack rest₂).world = machine.world := rfl
    have hworld' : ((other.setStack rest').setStack rest₂').world = other.world := rfl
    rw [hworld, hworld']
    generalize Value.apply machine.world.objects operator left right = found at happly ⊢
    generalize Value.apply other.world.objects operator left' right' = found' at happly ⊢
    cases happly with
    | ok hvalue => exact .ok (h.push hvalue).advance
    | error fault => exact h.failWith fault
  | setVariable name =>
    simp only [Machine.execute]
    refine h.popThen fun value value' _ _ _ _ hvalue h => ?_
    exact .ok (h.withExecution (h.execution.assign name hvalue)).advance
  | call name argc restart =>
    rw [execute_call_of_request?_eq_none hquiet, execute_call_of_request?_eq_none hquiet',
      h.execution.program]
    split
    · exact h.callProcedure hsetting.maxCallDepth _ argc
    · exact h.failWith _
  | callMethod object name argc restart =>
    have hreceiver := h.receiver hbridge object
    simp only [Machine.request?] at hquiet hquiet'
    simp only [Machine.execute, callMethod]
    generalize machine.receiver object = found at hreceiver hquiet ⊢
    generalize other.receiver object = found' at hreceiver hquiet' ⊢
    cases hreceiver with
    | error fault => exact h.failWith fault
    | @ok found found' hfound =>
      obtain ⟨value, _, found⟩ := found
      obtain ⟨value', typeName, found'⟩ := found'
      obtain ⟨hvalue, rfl, hfound⟩ := hfound
      rw [Option.map_eq_none_iff] at hquiet hquiet'
      simp only [hquiet, hquiet']
      exact hfound.failWith _
  | jumpUnless target =>
    simp only [Machine.execute]
    refine h.popThen fun value value' _ _ _ _ hvalue h => ?_
    rw [hvalue.truthy_eq]
    split
    · exact .ok h.advance
    · exact h.jump target
  | stop => exact .ok (h.advance.pause _)
  | jump target => exact h.jump target
  | callBuiltin function argc =>
    simp only [Machine.execute, hsetting.signals]
    refine h.popArgsThen fun args args' _ _ hargs h => ?_
    have hrun := function.agree_run hargs setting.signals
    generalize function.run args setting.signals = found at hrun ⊢
    generalize function.run args' setting.signals = found' at hrun ⊢
    cases hrun with
    | ok hvalue => exact .ok (h.push hvalue).advance
    | error fault => exact h.failWith fault
  | nop => exact .ok h.advance
  | wait all names =>
    simp only [Machine.execute, hsetting.signals]
    split
    · exact .ok h.advance
    · refine .ok (pause ?_ _)
      exact { h with status := { h.status with waitingFor := rfl } }
  | pushResult => exact .ok (h.push h.execution.frame.result).advance
  | expectStack count =>
    simp only [Machine.execute, ← h.stack.length_eq]
    split
    · exact .ok h.advance
    · exact h.failWith _
  | ret hasValue =>
    cases hasValue with
    | true =>
      simp only [Machine.execute]
      exact h.popThen fun _ _ _ _ _ _ hvalue h => h.leave hvalue
    | false => exact h.leave rfl
  | pushProperty name =>
    simp only [Machine.execute]
    refine h.popThen fun object object' rest rest' _ _ hobject h => ?_
    have hproperty := h.property hbridge name hobject
    generalize (machine.setStack rest).property name object = found at hproperty ⊢
    generalize (other.setStack rest').property name object' = found' at hproperty ⊢
    obtain ⟨value, found⟩ := found
    obtain ⟨value', found'⟩ := found'
    obtain ⟨hvalue, hfound⟩ := hproperty
    cases hvalue with
    | ok hvalue => exact .ok (hfound.push hvalue).advance
    | error fault => exact hfound.failWith fault
  | invert =>
    simp only [Machine.execute]
    refine h.popThen fun value value' _ _ _ _ hvalue h => ?_
    rw [hvalue.truthy_eq]
    have hbool : (Value.bool !value.truthy).Matches R (.bool !value.truthy) := rfl
    exact .ok (h.push hbool).advance

end Machine.Mirrors

end DurableScript
