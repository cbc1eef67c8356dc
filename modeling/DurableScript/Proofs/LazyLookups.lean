import Mathlib.Data.Finset.Card
import DurableScript.Proofs.DeferredReading
import DurableScript.Proofs.LazyRuns
import DurableScript.Proofs.Lookups

namespace DurableScript

variable {H : Type} {K : ObjectRef Value → Prop}

/-! Stores. -/

namespace Objects

variable {objects looked after : Objects} {source cell : Nat} {id : String}
  {ref : ObjectRef Value} {object : HostObject Value}

structure Extends (objects after : Objects) : Prop where
  cells : ∀ {cell : Nat} {known}, objects.cells[cell]? = some known → after.cells[cell]? = some known
  sources : ∀ {source : Nat} {known}, objects.sources[source]? = some known →
    after.sources[source]? = some known
  fresh : ∀ {cell : Nat}, objects.cells[cell]? = none → after.found? cell = none

theorem Extends.refl (objects : Objects) : objects.Extends objects :=
  ⟨id, id, fun h => by rw [found?, h]; rfl⟩

theorem Extends.found?_eq (h : objects.Extends after) (cell : Nat) :
    after.found? cell = objects.found? cell := by
  cases hcell : objects.cells[cell]? with
  | none => rw [h.fresh hcell, found?, hcell]; rfl
  | some known => rw [found?, found?, hcell, h.cells hcell]

theorem Extends.precedes (h : objects.Extends after) : objects.Precedes after :=
  fun cell _ hfound => (h.found?_eq cell).trans hfound

def filled (objects : Objects) (source : Nat) : Finset Nat :=
  (Finset.range objects.cells.size).filter fun cell =>
    (objects.cells[cell]?).any fun known => known.source == source && known.content.isSome

theorem mem_filled : cell ∈ objects.filled source ↔
    ∃ object, objects.cells[cell]? = some ⟨source, some object⟩ := by
  simp only [filled, Finset.mem_filter, Finset.mem_range, Option.any_eq_true, Bool.and_eq_true,
    beq_iff_eq, Option.isSome_iff_exists]
  constructor
  · rintro ⟨-, ⟨_, _⟩, hcell, rfl, object, rfl⟩
    exact ⟨object, hcell⟩
  · rintro ⟨object, hcell⟩
    exact ⟨(Array.getElem?_eq_some_iff.1 hcell).1, _, hcell, rfl, object, rfl⟩

theorem Extends.filled_eq (h : objects.Extends after) (source : Nat) :
    after.filled source = objects.filled source := by
  ext cell
  rw [mem_filled, mem_filled]
  refine ⟨fun ⟨object, hafter⟩ => ⟨object, ?_⟩, fun ⟨object, hcell⟩ => ⟨object, h.cells hcell⟩⟩
  cases hcell : objects.cells[cell]? with
  | none =>
    have hopen := h.fresh hcell
    rw [found?, hafter] at hopen
    cases hopen
  | some known => rw [← h.cells hcell, hafter]

/-- A cell is looked up: the resolvers of its source are asked for the id, which counts, and the cell
keeps the answer. -/
def LooksUp (objects : Objects) (cell : Nat) (id : String) (object : HostObject Value)
    (after : Objects) : Prop :=
  ∃ source resolvers lookups, objects.cells[cell]? = some ⟨source, none⟩ ∧
    objects.sources[source]? = some ⟨resolvers, lookups⟩ ∧
    Resolver.answer? resolvers id = some object ∧
    after = fill { objects with
      sources := objects.sources.setIfInBounds source ⟨resolvers, lookups + 1⟩ } cell object

theorem looksUp_of_resolve (h : objects.resolve ref = .ok (object, after)) :
    after = objects ∨ ∃ cell id, ref = .lazy cell id ∧ objects.LooksUp cell id object after := by
  obtain ⟨-, rfl⟩ | ⟨cell, id, source, looked, rfl, hcell, hlookUp, rfl⟩ := resolve_cases h
  · exact .inl rfl
  · obtain ⟨known, resolver, hknown, hfind, rfl, rfl⟩ := lookUp_cases hlookUp
    refine .inr ⟨cell, id, rfl, source, known.resolvers, known.lookups, hcell, hknown, ?_, rfl⟩
    rw [Resolver.answer?, hfind]
    rfl

namespace LooksUp

variable (h : objects.LooksUp cell id object after)

include h

theorem found?_eq (other : Nat) :
    after.found? other = if other = cell then some object else objects.found? other := by
  obtain ⟨source, resolvers, lookups, hcell, -, -, rfl⟩ := h
  by_cases hother : other = cell
  · subst hother
    simp [found?, fill, Array.getElem?_modify, hcell]
  · simp [found?, fill, Array.getElem?_modify, hother, Ne.symm hother]

theorem open_before : objects.found? cell = none := by
  obtain ⟨source, resolvers, lookups, hcell, -⟩ := h
  rw [found?, hcell]
  rfl

theorem sources_size : after.sources.size = objects.sources.size := by
  obtain ⟨source, resolvers, lookups, -, -, -, rfl⟩ := h
  simp [fill]

theorem precedes : objects.Precedes after := by
  intro other kept hkept
  rw [h.found?_eq, if_neg]
  · exact hkept
  · rintro rfl
    cases h.open_before.symm.trans hkept

theorem counted (source : Nat) : objects.filled source ⊆ after.filled source ∧
    after.lookups source + (objects.filled source).card =
      objects.lookups source + (after.filled source).card := by
  obtain ⟨asked, resolvers, lookups, hcell, hsource, -, hafter⟩ := h
  have hcells (other : Nat) : after.cells[other]? =
      if other = cell then some ⟨asked, some object⟩ else objects.cells[other]? := by
    subst hafter
    split
    · next hother => simp [hother, fill, Array.getElem?_modify, hcell]
    · next hother => simp [fill, Array.getElem?_modify, Ne.symm hother]
  by_cases hsame : source = asked
  · subst hsame
    have hlookups : after.lookups source = objects.lookups source + 1 := by
      obtain ⟨hlt, hknown⟩ := Array.getElem?_eq_some_iff.1 hsource
      simp [hafter, Objects.lookups, fill, hlt, hknown]
    have hfilled : after.filled source = insert cell (objects.filled source) := by
      ext other
      rw [Finset.mem_insert, mem_filled, mem_filled, hcells]
      split
      · next hother => simp [hother]
      · next hother => simp [hother]
    have hnew : cell ∉ objects.filled source := by simp [mem_filled, hcell]
    rw [hlookups, hfilled, Finset.card_insert_of_notMem hnew]
    exact ⟨Finset.subset_insert _ _, by omega⟩
  · have hlookups : after.lookups source = objects.lookups source := by
      simp [hafter, Objects.lookups, fill, Array.getElem?_setIfInBounds_ne (Ne.symm hsame)]
    have hfilled : after.filled source = objects.filled source := by
      ext other
      rw [mem_filled, mem_filled, hcells]
      split
      · next hother => simp [hother, hcell, Ne.symm hsame]
      · rfl
    rw [hlookups, hfilled]
    exact ⟨subset_rfl, rfl⟩

end LooksUp

end Objects

/-! Instructions. -/

/-- The host looks up no reference: it does not touch the cells and sources that there are. -/
structure Setting.Quiet (setting : Setting H) : Prop where
  functions : ∀ provider ∈ setting.functions, ∀ context name args (world : World H),
    world.objects.Extends (provider.invoke context name args world).2.objects
  methods : ∀ provider ∈ setting.methods, ∀ context value name args (world : World H),
    world.objects.Extends (provider.invoke context value name args world).2.objects

namespace Machine

variable {setting : Setting H} {machine found : Machine H} {request : Request H} {op : Op}
  {ref : ObjectRef Value}

/-- The instruction reads a variable, calls a method of a variable, or takes a property of an operand,
whose value is the reference. -/
def Uses (machine : Machine H) (ref : ObjectRef Value) : Op → Prop
  | .pushVariable name => machine.execution.lookup? name = some (.object ref)
  | .callMethod name _ _ _ => machine.execution.lookup? name = some (.object ref)
  | .pushProperty _ => ∃ rest, machine.stack = .object ref :: rest
  | _ => False

def Sees (machine : Machine H) (op : Op) (looked : Objects) : Prop :=
  looked = machine.world.objects ∨ ∃ ref object, machine.Uses ref op ∧
    machine.world.objects.resolve ref = .ok (object, looked)

theorem world_popThen {f : Value → Machine H → Outcome H}
    (h : ∀ value rest, (f value (machine.setStack rest)).machine.world = machine.world) :
    (machine.popThen f).machine.world = machine.world := by
  unfold popThen
  split
  · rfl
  · exact h _ _

theorem world_popArgsThen {argc : Nat} {f : List Value → Machine H → Outcome H}
    (h : ∀ args rest, (f args (machine.setStack rest)).machine.world = machine.world) :
    (machine.popArgsThen argc f).machine.world = machine.world := by
  unfold popArgsThen
  split
  · rfl
  · exact h _ _

theorem world_jump (machine : Machine H) (target : Nat) :
    (machine.jump target).machine.world = machine.world := by
  unfold jump
  dsimp only
  split <;> rfl

theorem world_leave (machine : Machine H) (value : Value) :
    (machine.leave value).machine.world = machine.world := by
  unfold leave
  dsimp only
  split
  · exact world_jump _ _
  · rfl

theorem world_callProcedure (machine : Machine H) (entry argc : Nat) :
    (callProcedure setting machine entry argc).machine.world = machine.world := by
  unfold callProcedure
  dsimp only
  split
  · rfl
  · exact world_popArgsThen fun args rest => world_jump _ _

theorem world_conclude (machine : Machine H) (restart : Nat) (reply : Reply) (world : World H) :
    (machine.conclude restart reply world).machine.world = world := by
  rw [conclude_eq]
  split
  · rfl
  · rfl
  · rfl
  · split
    · next jumped hjump =>
      show jumped.world = world
      have hworld := world_jump (machine.written reply.writes world) restart
      rw [hjump] at hworld
      exact hworld
    · exact world_jump _ _

theorem sees_readVariable {name : String} {value : Value} (hop : ∀ ref, machine.Uses ref op ↔
      machine.execution.lookup? name = some (.object ref))
    (h : machine.readVariable name = .ok (value, found)) : machine.Sees op found.world.objects := by
  obtain ⟨hlookup, ⟨ref, object, rfl, hresolve⟩ | ⟨-, rfl⟩⟩ := readVariable_eq_ok h
  · obtain ⟨objects, hobjects, rfl⟩ := resolve_eq_ok hresolve
    exact .inr ⟨ref, object, (hop ref).2 hlookup, hobjects⟩
  · exact .inl rfl

theorem sees_receiver {object name typeName : String} {argc restart : Nat} {value : Value}
    (h : machine.receiver object = .ok (value, typeName, found)) :
    machine.Sees (.callMethod object name argc restart) found.world.objects := by
  obtain ⟨read, hread, ⟨fields, -, -, rfl⟩ | ⟨ref, resolved, rfl, hresolve, -⟩⟩ := receiver_eq_ok h
  · exact sees_readVariable (fun _ => Iff.rfl) hread
  · obtain ⟨hlookup, ⟨_, known, ⟨⟩, hknown⟩ | ⟨hno, -⟩⟩ := readVariable_eq_ok hread
    · obtain ⟨objects, hobjects, rfl⟩ := resolve_eq_ok hknown
      obtain ⟨again, hagain, rfl⟩ := resolve_eq_ok hresolve
      have hsame := Objects.resolve_of_content? (Objects.content?_resolve hobjects)
      cases hsame.symm.trans hagain
      exact .inr ⟨ref, _, hlookup, hobjects⟩
    · exact absurd rfl (hno ref)

theorem sees_property {name : String} {value : Value} {rest : List Value}
    (h : machine.stack = value :: rest) :
    machine.Sees (.pushProperty name) ((machine.setStack rest).property name value).2.world.objects := by
  unfold property
  split
  · exact .inl rfl
  · next ref =>
    split
    · next object found hresolve =>
      obtain ⟨objects, hobjects, rfl⟩ := resolve_eq_ok hresolve
      exact .inr ⟨ref, object, ⟨rest, h⟩, hobjects⟩
    · exact .inl rfl
  · exact .inl rfl

theorem sees_request? (h : machine.request? setting op = some (request, found)) :
    machine.Sees op found.world.objects := by
  cases request?_cases h with
  | function => exact .inl rfl
  | method hreceiver => exact sees_receiver hreceiver

theorem extends_reply (hquiet : setting.Quiet) (h : machine.request? setting op = some (request, found)) :
    found.world.objects.Extends (found.reply setting request).2.objects := by
  cases request?_cases h with
  | function _ hfind => exact hquiet.functions _ (List.mem_of_find?_eq_some hfind) _ _ _ _
  | method _ hfind => exact hquiet.methods _ (List.mem_of_find?_eq_some hfind) _ _ _ _ _

theorem exists_sees_execute (hquiet : setting.Quiet) (machine : Machine H) (op : Op) :
    ∃ looked, machine.Sees op looked ∧
      looked.Extends (execute setting machine op).machine.world.objects := by
  have hstays (h : (execute setting machine op).machine.world = machine.world) :
      ∃ looked, machine.Sees op looked ∧
        looked.Extends (execute setting machine op).machine.world.objects := by
    rw [h]
    exact ⟨_, .inl rfl, .refl _⟩
  have hask {request : Request H} {found : Machine H}
      (hr : machine.request? setting op = some (request, found)) :
      ∃ looked, machine.Sees op looked ∧
        looked.Extends (execute setting machine op).machine.world.objects := by
    refine ⟨_, sees_request? hr, ?_⟩
    rw [execute_of_request? hr]
    split
    · exact .refl _
    · rw [world_conclude]
      exact extends_reply hquiet hr
  cases op with
  | pushVariable name =>
    rw [execute]
    split
    · next value read hread => exact ⟨_, sees_readVariable (fun _ => Iff.rfl) hread, .refl _⟩
    · exact ⟨_, .inl rfl, .refl _⟩
  | call name argc restart =>
    cases hr : machine.request? setting (.call name argc restart) with
    | some asked => exact hask hr
    | none =>
      refine hstays ?_
      rw [execute_call_of_request?_eq_none hr]
      split
      · exact world_callProcedure _ _ _
      · rfl
  | callMethod object name argc restart =>
    cases hr : machine.request? setting (.callMethod object name argc restart) with
    | some asked => exact hask hr
    | none =>
      simp only [execute, callMethod]
      simp only [request?] at hr
      split
      · exact ⟨_, .inl rfl, .refl _⟩
      · next value typeName found hreceiver =>
        rw [hreceiver] at hr
        rw [Option.map_eq_none_iff.1 hr]
        exact ⟨_, sees_receiver hreceiver, .refl _⟩
  | pushProperty name =>
    rw [execute, popThen]
    split
    · exact ⟨_, .inl rfl, .refl _⟩
    · next value rest hstack =>
      refine ⟨_, sees_property hstack, ?_⟩
      generalize (machine.setStack rest).property name value = found
      obtain ⟨_ | value, found⟩ := found <;> exact .refl _
  | operate op =>
    refine hstays ?_
    rw [execute]
    refine world_popThen fun _ _ => world_popThen fun _ _ => ?_
    split <;> rfl
  | setVariable name | invert =>
    refine hstays ?_
    rw [execute]
    exact world_popThen fun _ _ => rfl
  | jumpUnless target =>
    refine hstays ?_
    rw [execute]
    refine world_popThen fun _ _ => ?_
    split
    · rfl
    · exact world_jump _ _
  | jump target => exact hstays (world_jump _ _)
  | callBuiltin function argc =>
    refine hstays ?_
    rw [execute]
    refine world_popArgsThen fun _ _ => ?_
    split <;> rfl
  | wait all names | expectStack count =>
    refine hstays ?_
    simp only [execute]
    split <;> rfl
  | ret hasValue =>
    refine hstays ?_
    cases hasValue with
    | true =>
      rw [execute]
      exact world_popThen fun _ _ => world_leave _ _
    | false => exact world_leave _ _
  | pushValue | stop | nop | pushResult => exact hstays rfl

theorem exists_sees_step (hquiet : setting.Quiet) (machine : Machine H) (instruction : Instruction) :
    ∃ looked, machine.Sees instruction.op looked ∧
      looked.Extends (machine.step setting instruction).machine.world.objects := by
  obtain hsame | ⟨steps, hstep⟩ := machine_step setting machine instruction
  · rw [hsame]
    exact ⟨_, .inl rfl, .refl _⟩
  · rw [hstep]
    obtain ⟨looked, hsees, hextends⟩ := exists_sees_execute hquiet machine.clearMarks instruction.op
    exact ⟨looked, hsees, hextends⟩

end Machine

/-! What a host and runs do with an execution. -/

def HostWrite.refs : HostWrite → List (ObjectRef Value)
  | toFrame _ value => value.refs
  | toGlobals _ value => value.refs

def Answer.refs : Answer → List (ObjectRef Value)
  | value result => result.refs
  | before extra => extra.elim [] Value.refs
  | after result extra => result.refs ++ extra.elim [] Value.refs

def Reply.refs (reply : Reply) : List (ObjectRef Value) :=
  reply.writes.flatMap HostWrite.refs ++
    match reply.outcome with
    | .ok answer => answer.refs
    | .error _ => []

structure Setting.Within (K : ObjectRef Value → Prop) (setting : Setting H) : Prop where
  functions : ∀ provider ∈ setting.functions, ∀ context name args (world : World H),
    (∀ ref ∈ context.execution.refs ++ Value.refsItems args, K ref) →
      ∀ ref ∈ (provider.invoke context name args world).1.refs, K ref
  methods : ∀ provider ∈ setting.methods, ∀ context value name args (world : World H),
    (∀ ref ∈ context.execution.refs ++ Value.refsItems (value :: args), K ref) →
      ∀ ref ∈ (provider.invoke context value name args world).1.refs, K ref

/-- What may become of an execution and of the objects: the host writes a variable or takes a value
from the stack, it adds to the store, or the next instruction is executed in a run, which may fail. No
reference is looked up by the host, and all that it brings in are such references. -/
inductive Lives (K : ObjectRef Value → Prop) (first : Execution) (store : Objects) :
    Execution → Objects → Prop where
  | first : Lives K first store first store
  | write {execution : Execution} {objects : Objects} (write : HostWrite) :
      Lives K first store execution objects → (∀ ref ∈ write.refs, K ref) →
      Lives K first store (write.run execution) objects
  | pop {H : Type} {objects : Objects} (runner : Runner H) :
      Lives K first store runner.execution objects →
      Lives K first store runner.popValue.2.execution objects
  | add {execution : Execution} {objects after : Objects} :
      Lives K first store execution objects → objects.Extends after →
      Lives K first store execution after
  | step {H : Type} {execution : Execution} {objects : Objects} {setting : Setting H}
      {instruction : Instruction} (host : H) : Lives K first store execution objects →
      setting.Quiet → setting.Within K → execution.instruction? = some instruction →
      Lives K first store
        (Machine.step setting ⟨execution, .started, ⟨objects, host⟩⟩ instruction).machine.execution
        (Machine.step setting ⟨execution, .started, ⟨objects, host⟩⟩ instruction).machine.world.objects

namespace Lives

variable {first execution : Execution} {store objects after : Objects} {source : Nat}

theorem preserves {P : Objects → Prop} (h : Lives K first store execution objects) (hstart : P store)
    (hlooks : ∀ {objects after cell id object}, objects.LooksUp cell id object after → P objects →
      P after)
    (hextends : ∀ {objects after}, objects.Extends after → P objects → P after) : P objects := by
  induction h with
  | first => exact hstart
  | write _ _ _ ih => exact ih
  | pop _ _ ih => exact ih
  | add _ h ih => exact hextends h ih
  | @step H execution objects setting instruction host _ hquiet _ _ ih =>
    obtain ⟨looked, hsees, h⟩ := Machine.exists_sees_step hquiet
      ⟨execution, .started, ⟨objects, host⟩⟩ instruction
    refine hextends h ?_
    obtain rfl | ⟨ref, object, -, hresolve⟩ := hsees
    · exact ih
    · obtain rfl | ⟨cell, id, -, hlooks'⟩ := Objects.looksUp_of_resolve hresolve
      · exact ih
      · exact hlooks hlooks' ih

theorem precedes (h : Lives K first store execution objects) : store.Precedes objects :=
  h.preserves (.refl store) (fun hlooks h => h.trans hlooks.precedes)
    fun hextends h => h.trans hextends.precedes

theorem lookups_eq (h : Lives K first store execution objects)
    (hsource : source < store.sources.size) :
    objects.lookups source = store.lookups source +
      (objects.filled source \ store.filled source).card := by
  have hcounts : source < objects.sources.size ∧ store.filled source ⊆ objects.filled source ∧
      objects.lookups source + (store.filled source).card =
        store.lookups source + (objects.filled source).card := by
    refine h.preserves (P := fun objects => source < objects.sources.size ∧
      store.filled source ⊆ objects.filled source ∧
      objects.lookups source + (store.filled source).card =
        store.lookups source + (objects.filled source).card) ⟨hsource, subset_rfl, rfl⟩ ?_ ?_
    · rintro objects after cell id object hlooks ⟨hlt, hfilled, hcounted⟩
      obtain ⟨hfilled', hcounted'⟩ := hlooks.counted source
      exact ⟨hlooks.sources_size ▸ hlt, hfilled.trans hfilled', by omega⟩
    · rintro objects after hextends ⟨hlt, hfilled, hcounted⟩
      have hknown := hextends.sources (Array.getElem?_eq_getElem hlt)
      have hlookups : after.lookups source = objects.lookups source := by
        rw [Objects.lookups, Objects.lookups, hknown, Array.getElem?_eq_getElem hlt]
      rw [hextends.filled_eq, hlookups]
      exact ⟨(Array.getElem?_eq_some_iff.1 hknown).1, hfilled, hcounted⟩
  obtain ⟨-, hfilled, hcounted⟩ := hcounts
  have hle := Finset.card_le_card hfilled
  rw [Finset.card_sdiff_of_subset hfilled]
  omega

theorem runFor {H : Type} {setting : Setting H} {machine : Machine H} {outcome : Outcome H} {fuel : Nat}
    (h : Lives K first store machine.execution machine.world.objects) (hquiet : setting.Quiet)
    (hwithin : setting.Within K) (hstatus : machine.status = .started ∨ machine.status.running = false)
    (hrun : Machine.runFor setting fuel machine = some outcome) :
    Lives K first store outcome.machine.execution outcome.machine.world.objects := by
  have hsettle {machine : Machine H} (h : Lives K first store machine.execution machine.world.objects) :
      Lives K first store machine.settle.execution machine.settle.world.objects := by
    unfold Machine.settle
    split <;> exact h
  induction fuel generalizing machine with
  | zero =>
    cases hn : machine.next? with
    | none =>
      rw [Machine.runFor_of_next?_eq_none hn] at hrun
      cases hrun
      exact hsettle h
    | some instruction =>
      rw [Machine.runFor, hn] at hrun
      cases hrun
  | succ fuel ih =>
    cases hn : machine.next? with
    | none =>
      rw [Machine.runFor_of_next?_eq_none hn] at hrun
      cases hrun
      exact hsettle h
    | some instruction =>
      have hstarted : machine.status = .started := by
        refine hstatus.resolve_right fun hpaused => ?_
        rw [Machine.next?, hpaused] at hn
        cases hn
      have hstep := h.step machine.world.host hquiet hwithin (Machine.instruction?_of_next? hn)
      rw [← hstarted] at hstep
      rw [Machine.runFor_succ hn] at hrun
      cases hs : machine.step setting instruction with
      | fail error failed =>
        rw [hs] at hrun
        cases hrun
        change Lives K first store (machine.step setting instruction).machine.execution
          (machine.step setting instruction).machine.world.objects at hstep
        rwa [hs] at hstep
      | ok next =>
        rw [hs] at hrun
        change Lives K first store (machine.step setting instruction).machine.execution
          (machine.step setting instruction).machine.world.objects at hstep
        rw [hs] at hstep
        exact ih hstep (Machine.status_of_step hstarted hs) hrun

theorem run {H : Type} {runner after : Runner H} {world world' : World H} {error? : Option RunError}
    {fuel : Nat} (h : Lives K first store runner.execution world.objects)
    (hquiet : runner.setting.Quiet) (hwithin : runner.setting.Within K)
    (hrun : runner.run fuel world = some (error?, after, world')) :
    Lives K first store after.execution world'.objects := by
  unfold Runner.run at hrun
  split at hrun
  · obtain ⟨outcome, houtcome, hresult⟩ := Option.map_eq_some_iff.1 hrun
    cases hresult
    have hlives : Lives K first store (runner.machine world).execution
        (runner.machine world).world.objects := h
    exact hlives.runFor hquiet hwithin (.inl rfl) houtcome
  · cases hrun
    exact h

end Lives

/-! References that the host knows. -/

section Known

variable {R : ObjectRef Value → ObjectRef Value → Prop}

namespace Value

mutual

theorem Matches.refs : ∀ {value other : Value}, value.Matches R other →
    List.Forall₂ R value.refs other.refs
  | null, _, rfl | bool _, _, rfl | int _, _, rfl | float _, _, rfl | str _, _, rfl => .nil
  | list _, _, ⟨_, rfl, h⟩ => MatchesItems.refs h
  | record _, _, ⟨_, rfl, h⟩ => MatchesFields.refs h
  | object _, _, ⟨_, rfl, h⟩ => .cons h .nil

theorem MatchesItems.refs : ∀ {items others : List Value}, MatchesItems R items others →
    List.Forall₂ R (refsItems items) (refsItems others)
  | [], _, rfl => .nil
  | _ :: _, _, ⟨_, _, rfl, h, hrest⟩ => List.rel_append (Matches.refs h) (MatchesItems.refs hrest)

theorem MatchesFields.refs : ∀ {fields others : List (String × Value)},
    MatchesFields R fields others → List.Forall₂ R (refsFields fields) (refsFields others)
  | [], _, rfl => .nil
  | (_, _) :: _, _, ⟨_, _, rfl, h, hrest⟩ =>
    List.rel_append (Matches.refs h) (MatchesFields.refs hrest)

end

end Value

theorem Frame.Matches.refs {frame other : Frame} (h : frame.Matches R other) :
    List.Forall₂ R frame.refs other.refs :=
  List.rel_append (List.rel_append (Value.matchesFields_iff.2 h.vars).refs
    (Value.matchesItems_iff.2 h.stack).refs) h.result.refs

theorem Execution.Resembles.refs {execution other : Execution} (h : execution.Resembles R other) :
    List.Forall₂ R execution.refs other.refs :=
  List.rel_flatMap h.frames fun _ _ hframe => hframe.refs

theorem Value.isScalar_of_apply {objects : Objects} {op : Operator} {left right value : Value}
    (h : apply objects op left right = .ok value) : value.IsScalar := by
  cases op with
  | add =>
    rw [apply] at h
    split at h
    · cases h
      trivial
    · exact isScalar_of_calculate h
  | sub | mul | div => exact isScalar_of_calculate h
  | mod => exact isScalar_of_remainder h
  | _ =>
    cases h
    trivial

def Among (K : ObjectRef Value → Prop) (r q : ObjectRef Value) : Prop := K r ∧ q = r

theorem Execution.resembles_self {execution : Execution} (h : ∀ ref ∈ execution.refs, K ref) :
    execution.Resembles (Among K) execution := by
  have hframe (frame : Frame) (hframe : frame ∈ execution.frames) :
      frame.Matches (Among K) frame := by
    have href (ref : ObjectRef Value) (href : ref ∈ frame.refs) : Among K ref ref :=
      ⟨h ref (List.mem_flatMap.2 ⟨frame, hframe, href⟩), rfl⟩
    simp only [Frame.refs, List.mem_append] at href
    exact ⟨Value.matchesFields_iff.1 (Value.matchesFields_self _ fun r hr => href r (.inl (.inl hr))),
      Value.matchesItems_iff.1 (Value.matchesItems_self _ fun r hr => href r (.inl (.inr hr))),
      Value.matches_self _ fun r hr => href r (.inr hr), rfl⟩
  refine ⟨rfl, hframe _ List.mem_cons_self, List.forall₂_same.2 fun frame hmem => ?_, rfl, rfl⟩
  exact hframe frame (List.mem_cons_of_mem _ (List.mem_reverse.2 hmem))

theorem known_of_forall₂ {refs others : List (ObjectRef Value)}
    (h : List.Forall₂ (Among K) refs others) : ∀ ref ∈ refs, K ref :=
  List.forall_mem_of_forall₂ h.flip fun _ _ href => href.1

/-- Copies of a reference have one id, and the references in the properties of an object are known if it
is. -/
structure Coherent (K : ObjectRef Value → Prop) : Prop where
  id_eq : ∀ {cell id id'}, K (.lazy cell id) → K (.lazy cell id') → id' = id
  properties : ∀ {serial object}, K (.ready serial object) →
    ∀ ref ∈ Value.refsFields object.properties, K ref

namespace Objects

variable {objects after : Objects} {cell : Nat} {id : String} {object : HostObject Value}

def Faithful (K : ObjectRef Value → Prop) (objects : Objects) : Prop :=
  ∀ {source resolvers id object}, objects.Asks resolvers source →
    Resolver.answer? resolvers id = some object →
      object.persisted = some (.reference id) ∧ ∀ ref ∈ Value.refsFields object.properties, K ref

def Sound (K : ObjectRef Value → Prop) (objects : Objects) : Prop :=
  ∀ {cell object}, objects.found? cell = some object →
    (∀ id, K (.lazy cell id) → object.persisted = some (.reference id)) ∧
      ∀ ref ∈ Value.refsFields object.properties, K ref

theorem Extends.asks (h : objects.Extends after) {resolvers : List Resolver} {source : Nat}
    (hasks : objects.Asks resolvers source) : after.Asks resolvers source := by
  obtain ⟨lookups, hsource⟩ := hasks
  exact ⟨lookups, h.sources hsource⟩

theorem LooksUp.asks_iff (h : objects.LooksUp cell id object after) {resolvers : List Resolver}
    {source : Nat} : after.Asks resolvers source ↔ objects.Asks resolvers source := by
  obtain ⟨asked, known, count, -, hasked, -, rfl⟩ := h
  simp only [Asks, fill]
  by_cases hsame : asked = source
  · subst hsame
    obtain ⟨hlt, hknown⟩ := Array.getElem?_eq_some_iff.1 hasked
    simp [hlt, hknown]
  · simp [Array.getElem?_setIfInBounds_ne hsame]

theorem Extends.sound (h : objects.Extends after) (hsound : objects.Sound K) : after.Sound K :=
  fun hfound => hsound ((h.found?_eq _).symm.trans hfound)

theorem LooksUp.sound (h : objects.LooksUp cell id object after) (hcoherent : Coherent K)
    (href : K (.lazy cell id)) (hfaithful : objects.Faithful K) (hsound : objects.Sound K) :
    after.Sound K := by
  intro other kept hkept
  rw [h.found?_eq] at hkept
  split at hkept
  · next hother =>
    cases hkept
    obtain ⟨source, resolvers, lookups, -, hsource, hanswer, -⟩ := h
    obtain ⟨hpersisted, hproperties⟩ := hfaithful ⟨lookups, hsource⟩ hanswer
    refine ⟨fun id' href' => ?_, hproperties⟩
    rw [hother] at href'
    rw [hpersisted, hcoherent.id_eq href href']
  · exact hsound hkept

theorem properties_of_resolve {ref : ObjectRef Value} (hcoherent : Coherent K) (href : K ref)
    (hfaithful : objects.Faithful K) (hsound : objects.Sound K)
    (h : objects.resolve ref = .ok (object, after)) :
    ∀ r ∈ Value.refsFields object.properties, K r := by
  have hcontent := content?_resolve h
  cases ref with
  | ready =>
    cases hcontent
    exact hcoherent.properties href
  | lazy cell id =>
    obtain rfl | ⟨_, _, ⟨⟩, hlooks⟩ := looksUp_of_resolve h
    · exact (hsound hcontent).2
    · exact (hlooks.sound hcoherent href hfaithful hsound hcontent).2

end Objects

def World.Alike (K : ObjectRef Value → Prop) (world other : World H) : Prop :=
  other = world ∧ world.objects.Faithful K ∧ world.objects.Sound K

theorem World.bridge_alike (hcoherent : Coherent K) :
    World.Bridge (Among K) (World.Alike K : World H → World H → Prop) := by
  rintro _ world _ ref ⟨hworld, hfaithful, hsound⟩ ⟨href, hsame⟩
  subst hworld hsame
  cases hresolve : world.objects.resolve ref with
  | error id => exact .error id
  | ok found =>
    obtain ⟨object, after⟩ := found
    have hproperties := Objects.properties_of_resolve hcoherent href hfaithful hsound hresolve
    refine .ok ⟨⟨rfl, rfl, Value.matchesFields_self _ fun r hr => ⟨hproperties r hr, rfl⟩, rfl⟩,
      rfl, ?_⟩
    obtain rfl | ⟨cell, id, rfl, hlooks⟩ := Objects.looksUp_of_resolve hresolve
    · exact ⟨hfaithful, hsound⟩
    · exact ⟨fun hasks => hfaithful (hlooks.asks_iff.1 hasks),
        hlooks.sound hcoherent href hfaithful hsound⟩

theorem HostWrite.matches_among {write : HostWrite} (h : ∀ ref ∈ write.refs, K ref) :
    write.Matches (Among K) write := by
  cases write with
  | toFrame name value => exact .toFrame name (Value.matches_self value fun r hr => ⟨h r hr, rfl⟩)
  | toGlobals name value => exact .toGlobals name (Value.matches_self value fun r hr => ⟨h r hr, rfl⟩)

theorem rel_extra_self {extra : Option Value} (h : ∀ ref ∈ extra.elim [] Value.refs, K ref) :
    Option.Rel (Value.Matches (Among K)) extra extra := by
  cases extra with
  | none => exact .none
  | some value => exact .some (Value.matches_self value fun r hr => ⟨h r hr, rfl⟩)

theorem Answer.matches_among {answer : Answer} (h : ∀ ref ∈ answer.refs, K ref) :
    answer.Matches (Among K) answer := by
  cases answer with
  | value result => exact .value (Value.matches_self result fun r hr => ⟨h r hr, rfl⟩)
  | before extra => exact .before (rel_extra_self h)
  | after result extra =>
    obtain ⟨hresult, hextra⟩ := List.forall_mem_append.1 h
    exact .after (Value.matches_self result fun r hr => ⟨hresult r hr, rfl⟩) (rel_extra_self hextra)

theorem Reply.matches_among {reply : Reply} (h : ∀ ref ∈ reply.refs, K ref) :
    reply.Matches (Among K) reply := by
  obtain ⟨hwrites, houtcome⟩ := List.forall_mem_append.1 h
  refine ⟨List.forall₂_same.2 fun write hwrite => HostWrite.matches_among fun r hr =>
    hwrites r (List.mem_flatMap.2 ⟨write, hwrite, hr⟩), ?_⟩
  cases hanswer : reply.outcome with
  | error error => exact .error error
  | ok answer =>
    rw [hanswer] at houtcome
    exact .ok (Answer.matches_among houtcome)

def Hands (K : ObjectRef Value → Prop)
    (answer other : CallContext → List Value → World H → Reply × World H) : Prop :=
  other = answer ∧ ∀ context args world,
    (∀ ref ∈ context.execution.refs ++ Value.refsItems args, K ref) →
      ∀ ref ∈ (answer context args world).1.refs, K ref

theorem Setting.Within.parallels {setting : Setting H} (h : setting.Within K) :
    setting.Parallels (Among K) (Hands K) setting where
  functions := List.forall₂_same.2 fun provider hprovider =>
    ⟨rfl, fun name => ⟨rfl, fun context args world hgiven =>
      h.functions provider hprovider context name args world hgiven⟩⟩
  methods := List.forall₂_same.2 fun provider hprovider => by
    refine ⟨rfl, fun name value value' hvalue => ?_⟩
    have hknown := known_of_forall₂ hvalue.refs
    cases (hvalue.mono (S := Eq) fun _ _ href => href.2.symm).eq
    refine ⟨rfl, fun context args world hgiven => h.methods provider hprovider _ _ _ _ _ ?_⟩
    obtain ⟨hcontext, hargs⟩ := List.forall_mem_append.1 hgiven
    exact List.forall_mem_append.2 ⟨hcontext, List.forall_mem_append.2 ⟨hknown, hargs⟩⟩
  signals := rfl
  maxCallDepth := rfl

namespace Machine

variable {setting : Setting H} {machine : Machine H} {op : Op} {looked : Objects}

theorem Sees.faithful (h : machine.Sees op looked) (hfaithful : looked.Faithful K) :
    machine.world.objects.Faithful K := by
  obtain rfl | ⟨ref, object, -, hresolve⟩ := h
  · exact hfaithful
  · obtain rfl | ⟨cell, id, -, hlooks⟩ := Objects.looksUp_of_resolve hresolve
    · exact hfaithful
    · exact fun hasks => hfaithful (hlooks.asks_iff.2 hasks)

theorem mirrors_execute (hcoherent : Coherent K) (hquiet : setting.Quiet) (hwithin : setting.Within K)
    (hknown : ∀ ref ∈ machine.execution.refs, K ref) (hstatus : machine.status.extra = none)
    (hsound : machine.world.objects.Sound K)
    (hfaithful : (execute setting machine op).machine.world.objects.Faithful K) :
    (execute setting machine op).Mirrors (Among K) (World.Alike K) (execute setting machine op) := by
  obtain ⟨looked, hsees, hextends⟩ := exists_sees_execute hquiet machine op
  have hbefore : machine.world.objects.Faithful K :=
    hsees.faithful fun hasks => hfaithful (hextends.asks hasks)
  have hmachine : machine.Mirrors (Among K) (World.Alike K) machine :=
    ⟨Execution.resembles_self hknown, ⟨rfl, rfl, rfl, by rw [hstatus]; exact .none⟩, rfl, hbefore,
      hsound⟩
  have hbridge : World.Bridge (Among K) (World.Alike K : World H → World H → Prop) :=
    World.bridge_alike hcoherent
  cases hr : machine.request? setting op with
  | none =>
    refine hmachine.execute hwithin.parallels hbridge hr ?_
    intro operator left right rest left' right' rest' _ hstack hstack' _ _
    cases hstack.symm.trans hstack'
    exact Value.agree_self fun _ => Value.isScalar_of_apply
  | some asked =>
    obtain ⟨request, found⟩ := asked
    obtain ⟨_, _, hr', hrequest, hfound⟩ := hmachine.exists_request? hwithin.parallels hbridge hr
    cases hr.symm.trans hr'
    rw [execute_of_request? hr] at hfaithful ⊢
    split
    · exact .fail _ (hfound.setStack .nil)
    · next hargs =>
      rw [if_neg hargs, world_conclude] at hfaithful
      have hexecution : (found.asking request).execution.Resembles (Among K)
          (found.asking request).execution := hfound.execution.dropOperands request.argc
      have hgiven : ∀ ref ∈ (found.asking request).execution.refs ++
          Value.refsItems (found.stack.take request.argc), K ref :=
        List.forall_mem_append.2 ⟨known_of_forall₂ hexecution.refs, known_of_forall₂
          (Value.matchesItems_iff.2 (List.forall₂_take request.argc hfound.stack)).refs⟩
      refine Mirrors.conclude hexecution hfound.status
        (Reply.matches_among (hrequest.answer.2 ((found.asking request).context setting)
          (found.stack.take request.argc) found.world hgiven)) ?_ _
      exact ⟨rfl, hfaithful, (extends_reply hquiet hr).sound hfound.world.2.2⟩

end Machine

theorem Runner.known_popValue {runner : Runner H} (h : ∀ ref ∈ runner.execution.refs, K ref) :
    ∀ ref ∈ runner.popValue.2.execution.refs, K ref := by
  unfold popValue
  split
  · exact h
  · next value rest hstack =>
    have hself := Execution.resembles_self h
    have hrest : List.Forall₂ (Value.Matches (Among K)) rest rest := by
      have hframe := hself.frame.stack
      rw [hstack] at hframe
      exact (List.forall₂_cons.1 hframe).2
    refine known_of_forall₂ (hself.modifyFrame (f := fun frame => { frame with stack := rest })
      (g := fun frame => { frame with stack := rest }) fun _ _ hframe => ?_).refs
    exact { hframe with stack := hrest }

theorem Lives.known {first execution : Execution} {store objects : Objects}
    (h : Lives K first store execution objects) (hcoherent : Coherent K)
    (hfirst : ∀ ref ∈ first.refs, K ref) (hstore : store.Sound K) (hfaithful : objects.Faithful K) :
    (∀ ref ∈ execution.refs, K ref) ∧ objects.Sound K := by
  induction h with
  | first => exact ⟨hfirst, hstore⟩
  | write write _ hwrite ih =>
    obtain ⟨hknown, hsound⟩ := ih hfaithful
    have hwrites := (Execution.resembles_self hknown).writes
      (.cons (HostWrite.matches_among hwrite) .nil)
    exact ⟨known_of_forall₂ hwrites.refs, hsound⟩
  | pop runner _ ih =>
    obtain ⟨hknown, hsound⟩ := ih hfaithful
    exact ⟨Runner.known_popValue hknown, hsound⟩
  | add _ hextends ih =>
    obtain ⟨hknown, hsound⟩ := ih fun hasks => hfaithful (hextends.asks hasks)
    exact ⟨hknown, hextends.sound hsound⟩
  | @step H execution objects setting instruction host _ hquiet hwithin _ ih =>
    obtain hsame | ⟨steps, hstep⟩ := Machine.machine_step setting
      ⟨execution, .started, ⟨objects, host⟩⟩ instruction
    · rw [hsame] at hfaithful ⊢
      exact ih hfaithful
    · rw [hstep] at hfaithful ⊢
      obtain ⟨looked, hsees, hextends⟩ := Machine.exists_sees_execute hquiet
        (Machine.clearMarks ⟨execution, .started, ⟨objects, host⟩⟩) instruction.op
      obtain ⟨hknown, hsound⟩ := ih (hsees.faithful fun hasks => hfaithful (hextends.asks hasks))
      have hmirrors := @Machine.mirrors_execute _ _ _
        (Machine.clearMarks ⟨execution, .started, ⟨objects, host⟩⟩) _ hcoherent hquiet hwithin hknown
        rfl hsound hfaithful
      generalize Machine.execute setting _ instruction.op = outcome at hmirrors ⊢
      cases hmirrors with
      | ok h | fail error h => exact ⟨known_of_forall₂ h.execution.refs, h.world.2.2⟩

end Known

/-! What operators and texts see of a store. -/

section Texts

variable {objects other : Objects} {ref : ObjectRef Value}

namespace Value

mutual

theorem tagForm_congr : ∀ value : Value,
    (∀ ref ∈ value.refs, other.tagForm ref = objects.tagForm ref) →
    value.tagForm other = value.tagForm objects
  | null, _ | bool true, _ | bool false, _ | int _, _ | float _, _ | str _, _ => rfl
  | list items, h => by rw [tagForm, tagForm, itemForms_congr items h]
  | record fields, h => by rw [tagForm, tagForm, fieldForms_congr fields h]
  | object ref, h => h ref (List.mem_singleton_self ref)

theorem itemForms_congr : ∀ items : List Value,
    (∀ ref ∈ refsItems items, other.tagForm ref = objects.tagForm ref) →
    itemForms other items = itemForms objects items
  | [], _ => rfl
  | item :: rest, h => by
    obtain ⟨hitem, hrest⟩ := List.forall_mem_append.1 h
    rw [itemForms, itemForms, tagForm_congr item hitem, itemForms_congr rest hrest]

theorem fieldForms_congr : ∀ fields : List (String × Value),
    (∀ ref ∈ refsFields fields, other.tagForm ref = objects.tagForm ref) →
    fieldForms other fields = fieldForms objects fields
  | [], _ => rfl
  | (name, value) :: rest, h => by
    obtain ⟨hvalue, hrest⟩ := List.forall_mem_append.1 h
    rw [fieldForms, fieldForms, tagForm_congr value hvalue, fieldForms_congr rest hrest]

end

end Value

namespace Snapshot

theorem writeVariables_congr {vars : Table Value}
    (h : ∀ ref ∈ Value.refsFields vars, other.tagForm ref = objects.tagForm ref) :
    writeVariables other vars = writeVariables objects vars := by
  induction vars with
  | nil => rfl
  | cons entry rest ih =>
    obtain ⟨hvalue, hrest⟩ := List.forall_mem_append.1 h
    rw [writeVariables, writeVariables, Value.toJson, Value.toJson, Value.tagForm_congr _ hvalue,
      ih hrest]

theorem writeFrame_congr {frame : Frame}
    (h : ∀ ref ∈ frame.refs, other.tagForm ref = objects.tagForm ref) :
    writeFrame other frame = writeFrame objects frame := by
  simp only [Frame.refs, List.forall_mem_append] at h
  obtain ⟨⟨hvars, hstack⟩, hresult⟩ := h
  have hreverse : ∀ ref ∈ Value.refsItems frame.stack.reverse,
      other.tagForm ref = objects.tagForm ref := by
    intro ref href
    obtain ⟨value, hvalue, href⟩ := Value.mem_refsItems.1 href
    exact hstack ref (Value.mem_refsItems.2 ⟨value, List.mem_reverse.1 hvalue, href⟩)
  rw [writeFrame, writeFrame, writeVariables_congr hvars, Value.itemForms_congr _ hreverse,
    Value.toJson, Value.toJson, Value.tagForm_congr _ hresult]

theorem mapM_writeFrame_congr {frames : List Frame}
    (h : ∀ ref ∈ frames.flatMap Frame.refs, other.tagForm ref = objects.tagForm ref) :
    frames.mapM (writeFrame other) = frames.mapM (writeFrame objects) := by
  induction frames with
  | nil => rfl
  | cons frame rest ih =>
    obtain ⟨hframe, hrest⟩ := List.forall_mem_append.1 h
    rw [List.mapM_cons, List.mapM_cons, writeFrame_congr hframe, ih hrest]

theorem writeInstruction_congr (instruction : Instruction) :
    writeInstruction other instruction = writeInstruction objects instruction := by
  have hscalar : ∀ ref ∈ Value.refsItems instruction.op.operands,
      other.tagForm ref = objects.tagForm ref := by
    intro ref href
    obtain ⟨value, hvalue, href⟩ := Value.mem_refsItems.1 href
    rw [(instruction.op.isScalar_operands value hvalue).objectFree.refs_eq_nil] at href
    cases href
  rw [writeInstruction, writeInstruction, Value.itemForms_congr _ hscalar]

end Snapshot

theorem Execution.snapshot_congr {execution : Execution}
    (h : ∀ ref ∈ execution.refs, other.tagForm ref = objects.tagForm ref) :
    execution.snapshot other = execution.snapshot objects := by
  have hcode : execution.program.code.toList.mapM (Snapshot.writeInstruction other) =
      execution.program.code.toList.mapM (Snapshot.writeInstruction objects) :=
    congrArg (execution.program.code.toList.mapM ·) (funext Snapshot.writeInstruction_congr)
  have hindex : (Op.indexValue execution.pc).toJson other =
      (Op.indexValue execution.pc).toJson objects := rfl
  rw [snapshot, snapshot, Snapshot.writeExecution, Snapshot.writeExecution,
    Snapshot.mapM_writeFrame_congr h, hcode, hindex]

section Contents

variable (h : ∀ cell, other.found? cell = objects.found? cell)

include h

theorem Objects.label_congr (ref : ObjectRef Value) : other.label ref = objects.label ref := by
  cases ref with
  | ready => rfl
  | lazy cell id => rw [label, label, h]

theorem Objects.persisted_congr (ref : ObjectRef Value) :
    other.persisted ref = objects.persisted ref := by
  cases ref with
  | ready => rfl
  | lazy cell id => rw [persisted, persisted, h]

theorem Objects.tagForm_congr (ref : ObjectRef Value) : other.tagForm ref = objects.tagForm ref := by
  have hcontent : other.content? ref = objects.content? ref := by
    cases ref with
    | ready => rfl
    | lazy cell id => exact h cell
  rw [tagForm, tagForm, persisted_congr h, typeName?, typeName?, hcontent]

theorem Value.text_congr (value : Value) : value.text other = value.text objects := by
  refine (Value.matches_self (R := Eq) value fun _ _ => rfl).text_eq ?_
  rintro ref _ rfl
  exact Objects.label_congr h ref

theorem Value.looseEq_congr (left right : Value) :
    looseEq other left right = looseEq objects left right := by
  rw [looseEq_eq, looseEq_eq]
  simp only [Objects.sameRef, Objects.persisted_congr h]

theorem Value.apply_congr (op : Operator) (left right : Value) :
    apply other op left right = apply objects op left right := by
  cases op with
  | add | concat => simp only [apply, join, text_congr h]
  | eq | ne => simp only [apply, looseEq_congr h]
  | _ => rfl

end Contents

theorem Objects.Sound.tagForm_eq (h : objects.Sound K) (h' : other.Sound K) (href : K ref) :
    other.tagForm ref = objects.tagForm ref := by
  have hreference {objects : Objects} {cell : Nat} {id : String} (h : objects.Sound K)
      (href : K (.lazy cell id)) : objects.persisted (.lazy cell id) = some (.reference id) := by
    cases hfound : objects.found? cell with
    | none => exact persisted_lazy hfound id
    | some object =>
      rw [persisted, hfound]
      exact (h hfound).1 id href
  cases ref with
  | ready => rfl
  | lazy cell id =>
    rw [tagForm_of_reference (hreference h href), tagForm_of_reference (hreference h' href)]

end Texts

/-! What is read from a text. -/

def Known (Own : ObjectRef Value → Prop) (first : Execution) (ref : ObjectRef Value) : Prop :=
  Own ref ∨ ref ∈ first.refs

/-- What the host may bring to an execution that was read from a text: references with cells of their
own, not those that were made for the text; what it had looked up before is kept under its id. The
references in the properties of objects are among those that are known. -/
structure Owned (Own : ObjectRef Value → Prop) (first : Execution) (store listed : Objects) : Prop where
  id_eq : ∀ {cell id id'}, Own (.lazy cell id) → Own (.lazy cell id') → id' = id
  apart : ∀ {cell id}, Own (.lazy cell id) → cell < store.cells.size ∨ listed.cells.size ≤ cell
  properties : ∀ {serial object}, Known Own first (.ready serial object) →
    ∀ ref ∈ Value.refsFields object.properties, Known Own first ref
  found : ∀ {cell object}, store.found? cell = some object →
    (∀ id, Own (.lazy cell id) → object.persisted = some (.reference id)) ∧
      ∀ ref ∈ Value.refsFields object.properties, Known Own first ref

section Reading

variable {Own : ObjectRef Value → Prop} {first : Execution} {store listed : Objects} {source : Nat}
  {resolvers : List Resolver} {ids : List String}

theorem Objects.Lists.found?_eq (h : store.Lists source ids listed) (cell : Nat) :
    listed.found? cell = store.found? cell := by
  obtain hlt | hle := Nat.lt_or_ge cell store.cells.size
  · rw [found?, found?, h.getElem?_eq hlt]
  · have hnone : store.cells[cell]? = none := Array.getElem?_eq_none hle
    rw [found?, found?, hnone]
    cases hcell : listed.cells[cell]? with
    | none => rfl
    | some known =>
      rw [h.getElem?_of_le hle hcell]
      rfl

theorem Objects.Lists.bounds (h : store.Lists source ids listed) {cell : Nat} {id : String}
    (hlabels : store.Labels ids (.lazy cell id)) :
    store.cells.size ≤ cell ∧ cell < listed.cells.size := by
  obtain ⟨index, rfl, hid⟩ := hlabels
  have hindex := (List.getElem?_eq_some_iff.1 hid).1
  rw [h.size_eq]
  omega

variable (howned : Owned Own first store listed)
  (hlists : (store.addSource resolvers).2.Lists source ids listed)
  (hlabels : ∀ ref ∈ first.refs, (store.addSource resolvers).2.Labels ids ref)

include howned hlists hlabels

theorem Owned.coherent : Coherent (Known Own first) where
  id_eq := by
    have hapart {cell : Nat} {id id' : String} (h : Own (.lazy cell id))
        (h' : ObjectRef.lazy cell id' ∈ first.refs) : False := by
      obtain ⟨hle, hlt⟩ := hlists.bounds (hlabels _ h')
      have hle : store.cells.size ≤ cell := hle
      have hcells := howned.apart h
      omega
    rintro cell id id' (h | h) (h' | h')
    · exact howned.id_eq h h'
    · exact (hapart h h').elim
    · exact (hapart h' h).elim
    · exact (hlabels _ h).id_eq (hlabels _ h')
  properties := howned.properties

theorem Owned.sound : listed.Sound (Known Own first) := by
  intro cell object hfound
  rw [hlists.found?_eq] at hfound
  obtain ⟨hpersisted, hproperties⟩ := howned.found hfound
  refine ⟨?_, hproperties⟩
  rintro id (hown | hfirst)
  · exact hpersisted id hown
  · obtain ⟨hle, -⟩ := hlists.bounds (hlabels _ hfirst)
    rw [Objects.found?, Array.getElem?_eq_none hle] at hfound
    cases hfound

end Reading

/-- Reading a text with lookups put off looks nothing up, whether or not the text is accepted. From then
on, whatever hosts and runs do, as long as the host looks up nothing itself: a source has been asked once
for each of its cells that are filled, and what is filled stays so; a step looks up at most the reference
that its instruction uses as a variable, a receiver or the owner of a property; operators, texts of values
and snapshots do not ask. If all that is looked up is kept under the ids asked for, then the references
of the execution are those of the text and of the host, copies of one have one id, and the snapshot does
not depend on what has been looked up. -/
theorem lazy_lookups_are_minimal (sources : Sources) (text : String) (store : Objects) :
    (((Execution.ofSnapshot sources.onUse text).run.run store).2.sources =
        store.sources.push ⟨sources.resolvers, 0⟩ ∧
      ∀ cell, ((Execution.ofSnapshot sources.onUse text).run.run store).2.found? cell =
        store.found? cell) ∧
    ∀ {first : Execution} {listed : Objects},
      (Execution.ofSnapshot sources.onUse text).Gives store first listed →
      ∀ {K : ObjectRef Value → Prop} {execution : Execution} {objects : Objects},
        Lives K first listed execution objects →
        (∀ {H : Type} {runner after : Runner H} {host : H} {error? : Option RunError} {world : World H}
          {fuel : Nat}, runner.execution = execution → runner.setting.Quiet → runner.setting.Within K →
          runner.run fuel ⟨objects, host⟩ = some (error?, after, world) →
          Lives K first listed after.execution world.objects) ∧
        (objects.lookups store.sources.size = (objects.filled store.sources.size \
            listed.filled store.sources.size).card ∧
          ∀ {later : Execution} {after : Objects}, Lives K execution objects later after →
            objects.Precedes after) ∧
        (∀ {H : Type} {setting : Setting H} {machine : Machine H} (instruction : Instruction),
          setting.Quiet → machine.world.objects = objects →
          ∃ looked, (looked = objects ∨ ∃ cell id object,
              machine.Uses (.lazy cell id) instruction.op ∧ objects.LooksUp cell id object looked) ∧
            looked.Extends (machine.step setting instruction).machine.world.objects) ∧
        (∀ sources : Array ObjectSource,
          (∀ op left right, Value.apply { objects with sources := sources } op left right =
            Value.apply objects op left right) ∧
          (∀ value : Value, value.text { objects with sources := sources } = value.text objects) ∧
          execution.snapshot { objects with sources := sources } = execution.snapshot objects) ∧
        ∀ {Own : ObjectRef Value → Prop}, K = Known Own first → Owned Own first store listed →
          objects.Faithful K → (∀ ref ∈ execution.refs, K ref) ∧ Coherent K ∧
            ∀ other : Objects, other.Sound K → execution.snapshot other = execution.snapshot objects := by
  obtain ⟨ids, hlists, hlabels⟩ := Execution.lists_ofSnapshot sources text store
  refine ⟨⟨hlists.sources, hlists.found?_eq⟩, ?_⟩
  intro first listed hgives K execution objects hlives
  rw [show (Execution.ofSnapshot sources.onUse text).run.run store = _ from hgives] at hlists hlabels
  refine ⟨?_, ⟨?_, fun hlater => hlater.precedes⟩, ?_, fun others => ?_, ?_⟩
  · rintro H runner after host error? world fuel rfl hquiet hwithin hrun
    exact Lives.run hlives hquiet hwithin hrun
  · have hsource : listed.sources[store.sources.size]? = some ⟨sources.resolvers, 0⟩ := by
      rw [hlists.sources]
      exact Array.getElem?_push_size
    rw [hlives.lookups_eq (Array.getElem?_eq_some_iff.1 hsource).1, Objects.lookups, hsource]
    exact Nat.zero_add _
  · rintro H setting machine instruction hquiet rfl
    obtain ⟨looked, hsees, hextends⟩ := Machine.exists_sees_step hquiet machine instruction
    refine ⟨looked, ?_, hextends⟩
    obtain hsame | ⟨ref, object, huses, hresolve⟩ := hsees
    · exact .inl hsame
    · obtain hsame | ⟨cell, id, rfl, hlooks⟩ := Objects.looksUp_of_resolve hresolve
      · exact .inl hsame
      · exact .inr ⟨cell, id, object, huses, hlooks⟩
  · have hfound (cell : Nat) : ({ objects with sources := others } : Objects).found? cell =
        objects.found? cell := rfl
    exact ⟨Value.apply_congr hfound, Value.text_congr hfound,
      Execution.snapshot_congr fun ref _ => Objects.tagForm_congr hfound ref⟩
  · rintro Own rfl howned hfaithful
    have hcoherent := howned.coherent hlists (hlabels first rfl)
    obtain ⟨hknown, hsound⟩ := hlives.known hcoherent (fun ref => .inr)
      (howned.sound hlists (hlabels first rfl)) hfaithful
    exact ⟨hknown, hcoherent, fun other hother => Execution.snapshot_congr fun ref href =>
      hsound.tagForm_eq hother (hknown ref href)⟩

theorem quiet_echoing : echoing.Quiet where
  functions := by
    intro provider hprovider context name args world
    cases List.mem_singleton.1 hprovider
    exact .refl _
  methods := nofun

theorem within_echoing (K : ObjectRef Value → Prop) : echoing.Within K where
  functions := by
    intro provider hprovider context name args world hgiven ref href
    cases List.mem_singleton.1 hprovider
    cases args with
    | nil => cases href
    | cons value rest =>
      exact hgiven ref (List.mem_append_right _ (List.mem_append_left _ href))
  methods := nofun

namespace Execution

def questioningLater : Execution := pair questioning.program (.accountLater 0) (.accountLater 1)

theorem owned_questioningLater (listed : Objects) :
    Owned (fun _ => False) questioningLater .empty listed where
  id_eq := nofun
  apart := nofun
  properties := by
    rintro serial object (hown | hmem)
    · exact hown.elim
    simp [questioningLater, refs, frames, pair, Frame.refs, Value.refsFields, Value.refsItems,
      Value.refs, Value.accountLater] at hmem
  found := nofun

end Execution

open Execution in
theorem lazy_lookups_are_minimal_questioning :
    ∃ text listed after world, questioning.snapshot .empty = .ok text ∧
      (ofSnapshot (Sources.onUse ⟨[.accounts], [], false⟩) text).Gives .empty questioningLater listed ∧
      (Runner.ofSetting echoing).resume 6 ⟨listed, ()⟩ (some questioningLater) =
        some (none, after, world) ∧
      Lives (Known (fun _ => False) questioningLater) questioningLater listed after.execution
        world.objects ∧
      world.objects.lookups 0 = 1 ∧
      after.execution.snapshot listed = after.execution.snapshot world.objects := by
  obtain ⟨envelope, hwrite, hsnapshot, hread⟩ := exists_text tidy_questioning keepable_questioning
  have hgives : (ofSnapshot (Sources.onUse ⟨[.accounts], [], false⟩) envelope.json.text).Gives .empty
      questioningLater ⟨0, #[⟨[.accounts], 0⟩], #[⟨0, none⟩, ⟨0, none⟩]⟩ :=
    hread (levels_questioning hwrite) (restore_questioning_later hwrite)
  obtain ⟨⟨-, hfound⟩, hminimal⟩ :=
    lazy_lookups_are_minimal ⟨[.accounts], [], false⟩ envelope.json.text .empty
  rw [show (ofSnapshot (Sources.onUse ⟨[.accounts], [], false⟩) envelope.json.text).run.run .empty = _
    from hgives] at hfound
  have hrun : Runner.run 6 { Runner.ofSetting echoing with
      execution := questioningLater, loaded := true }
      ⟨⟨0, #[⟨[.accounts], 0⟩], #[⟨0, none⟩, ⟨0, none⟩]⟩, ()⟩ = some (none, _, _) := rfl
  obtain ⟨hruns, -⟩ := hminimal hgives (K := Known (fun _ => False) questioningLater) .first
  have hlives := hruns (by rfl) (by exact quiet_echoing) (by exact within_echoing _) hrun
  obtain ⟨-, -, -, -, htexts⟩ := hminimal hgives hlives
  refine ⟨_, _, _, _, hsnapshot, hgives, hrun, hlives, rfl, ?_⟩
  refine (htexts rfl (owned_questioningLater _) ?_).2.2 _ ?_
  · rintro (_ | source) resolvers id object ⟨lookups, hsource⟩ hanswer
    · cases hsource
      exact ⟨Sources.faithful_accounts.kept hanswer, fun ref href =>
        (Sources.faithful_accounts.resolved hanswer ref href).elim⟩
    · cases hsource
  · intro cell object hkept
    cases (hfound cell).symm.trans hkept

end DurableScript
