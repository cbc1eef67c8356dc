import DurableScript.Proofs.LazyReading

namespace DurableScript

namespace Objects

variable {first store : Objects} {source : Nat} {ids more : List String} {ref : ObjectRef Value}

structure Lists (first : Objects) (source : Nat) (ids : List String) (store : Objects) : Prop where
  sources : store.sources = first.sources
  cells : store.cells.toList = first.cells.toList ++ ids.map fun _ => ⟨source, none⟩

def Labels (first : Objects) (ids : List String) : ObjectRef Value → Prop
  | .ready _ _ => True
  | .lazy cell id => ∃ index, cell = first.cells.size + index ∧ ids[index]? = some id

theorem Labels.append (h : first.Labels ids ref) (more : List String) :
    first.Labels (ids ++ more) ref := by
  cases ref with
  | ready => trivial
  | lazy cell id =>
    obtain ⟨index, hcell, hid⟩ := h
    exact ⟨index, hcell, List.getElem?_append_left (List.getElem?_eq_some_iff.1 hid).1 ▸ hid⟩

theorem Labels.id_eq {cell : Nat} {id id' : String} (h : first.Labels ids (.lazy cell id))
    (h' : first.Labels ids (.lazy cell id')) : id' = id := by
  obtain ⟨index, rfl, hid⟩ := h
  obtain ⟨index', hcell, hid'⟩ := h'
  cases Nat.add_left_cancel hcell
  exact Option.some.inj (hid'.symm.trans hid)

namespace Lists

theorem refl (first : Objects) (source : Nat) : first.Lists source [] first :=
  ⟨rfl, (List.append_nil _).symm⟩

section

variable (h : first.Lists source ids store)
include h

theorem size_eq : store.cells.size = first.cells.size + ids.length := by
  simpa using congrArg List.length h.cells

theorem defer (id : String) : first.Lists source (ids ++ [id]) (store.defer source id).2 :=
  ⟨h.sources, by simp [Objects.defer, h.cells]⟩

theorem labels_defer (id : String) : first.Labels (ids ++ [id]) (.lazy store.cells.size id) :=
  ⟨ids.length, h.size_eq, by simp⟩

theorem getElem?_eq {cell : Nat} (hcell : cell < first.cells.size) :
    store.cells[cell]? = first.cells[cell]? := by
  rw [← Array.getElem?_toList, ← Array.getElem?_toList, h.cells,
    List.getElem?_append_left (by simpa using hcell)]

theorem getElem?_of_le {cell : Nat} {known : LazyCell} (hcell : first.cells.size ≤ cell)
    (hknown : store.cells[cell]? = some known) :
    known = ⟨source, none⟩ := by
  rw [← Array.getElem?_toList, h.cells, List.getElem?_append_right (by simpa using hcell),
    List.getElem?_map] at hknown
  obtain ⟨id, -, rfl⟩ := Option.map_eq_some_iff.1 hknown
  rfl

end

end Lists

end Objects

namespace Restoring

variable {α β : Type} {first : Objects} {source : Nat} {P : List String → α → Prop}
  {Q : List String → β → Prop}

/-- Whether or not the reading succeeds, it adds cells and looks nothing up; what it gives meets `P` with
the ids of the cells so far. -/
def Defers (first : Objects) (source : Nat) (x : Restoring α) (ids : List String)
    (P : List String → α → Prop) : Prop :=
  ∀ store, first.Lists source ids store → ∃ more,
    first.Lists source (ids ++ more) (x.run.run store).2 ∧
      ∀ a, (x.run.run store).1 = .ok a → P (ids ++ more) a

variable {ids : List String}

theorem defers_pure {a : α} (h : P ids a) : Defers first source (pure a) ids P := by
  intro store hstore
  refine ⟨[], ?_, ?_⟩
  · rw [List.append_nil]
    exact hstore
  · rintro _ ⟨⟩
    rwa [List.append_nil]

theorem defers_throw (e : FormatError) : Defers first source (throw e) ids P := by
  intro store hstore
  refine ⟨[], ?_, nofun⟩
  rw [List.append_nil]
  exact hstore

theorem defers_ofExcept {result : Except FormatError α} (h : ∀ a, result = .ok a → P ids a) :
    Defers first source (ofExcept result) ids P := by
  cases result with
  | error e => exact defers_throw e
  | ok a => exact defers_pure (h a rfl)

theorem Defers.bind {x : Restoring α} {f : α → Restoring β} (h : Defers first source x ids P)
    (hf : ∀ more a, P (ids ++ more) a → Defers first source (f a) (ids ++ more) Q) :
    Defers first source (x >>= f) ids Q := by
  intro store hstore
  obtain ⟨more, hlists, hresult⟩ := h store hstore
  rw [ExceptT.run_bind, StateT.run_bind]
  generalize x.run.run store = outcome at hlists hresult ⊢
  obtain ⟨e | a, between⟩ := outcome
  · exact ⟨more, hlists, nofun⟩
  · obtain ⟨rest, hlists', hresult'⟩ := hf more a (hresult a rfl) between hlists
    rw [List.append_assoc] at hlists' hresult'
    exact ⟨more ++ rest, hlists', hresult'⟩

theorem defers_get {f : Objects → Restoring α} (h : ∀ store, Defers first source (f store) ids P) :
    Defers first source (get >>= f) ids P := fun store hstore => h store store hstore

abbrev Labelled (first : Objects) (ids : List String) (refs : List (ObjectRef Value)) : Prop :=
  ∀ ref ∈ refs, first.Labels ids ref

theorem Labelled.append {refs : List (ObjectRef Value)} (h : Labelled first ids refs)
    (more : List String) : Labelled first (ids ++ more) refs := fun ref href => (h ref href).append more

theorem labelled_insert {table : Table Value} (h : Labelled first ids (Value.refsFields table))
    (name : String) {value : Value} (hvalue : Labelled first ids value.refs) :
    Labelled first ids (Value.refsFields (Table.insert name value table)) := by
  intro ref href
  obtain ⟨entry, hentry, href⟩ := Value.mem_refsFields.1 href
  obtain rfl | hentry := Table.mem_of_mem_insert hentry
  · exact hvalue ref href
  · exact h ref (Value.mem_refsFields.2 ⟨entry, hentry, href⟩)

theorem defers_adopt (object : HostObject Value) :
    Defers first source (adopt object) ids fun ids value => Labelled first ids value.refs := by
  intro store hstore
  refine ⟨[], ?_, ?_⟩
  · rw [List.append_nil]
    exact ⟨hstore.sources, hstore.cells⟩
  · rintro _ ⟨⟩ ref href
    cases List.mem_singleton.1 href
    trivial

theorem defers_reference (sources : Sources) (id : String) :
    Defers first source (reference sources.onUse source id) ids
      fun ids value => Labelled first ids value.refs := by
  intro store hstore
  refine ⟨[id], hstore.defer id, ?_⟩
  rintro _ ⟨⟩ ref href
  cases List.mem_singleton.1 href
  exact hstore.labels_defer id

theorem defers_blob (sources : Sources) (typeName payload : String) :
    Defers first source (blob sources typeName payload) ids
      fun ids value => Labelled first ids value.refs := by
  unfold blob
  split
  · exact defers_throw _
  · split
    · exact defers_throw _
    · exact defers_adopt _

end Restoring

namespace Tagged

open Restoring

variable {first : Objects} {source : Nat} (sources : Sources)

mutual

theorem defers_restore : ∀ (tagged : Tagged) (ids : List String),
    Defers first source (tagged.restore sources.onUse source) ids
      fun ids value => Labelled first ids value.refs
  | null, _ | bool _, _ | int _, _ | float _, _ | str _, _ => defers_pure nofun
  | list items, ids => (defers_restoreItems items ids).bind fun _ _ h => defers_pure h
  | record fields, ids =>
    (defers_restoreFields fields [] ids nofun).bind fun _ _ h => defers_pure h
  | reference id, _ => defers_reference sources id
  | blob typeName payload, _ => defers_blob _ typeName payload
  | fault e, _ => defers_throw e

theorem defers_restoreItems : ∀ (items : List Tagged) (ids : List String),
    Defers first source (restoreItems sources.onUse source items) ids
      fun ids values => Labelled first ids (Value.refsItems values)
  | [], _ => defers_pure nofun
  | item :: rest, ids => by
    refine (defers_restore item ids).bind fun more value hvalue => ?_
    refine (defers_restoreItems rest _).bind fun more' values hvalues => defers_pure ?_
    exact List.forall_mem_append.2 ⟨Labelled.append hvalue more', hvalues⟩

theorem defers_restoreFields : ∀ (fields : List (String × Tagged)) (done : Table Value)
    (ids : List String), Labelled first ids (Value.refsFields done) →
    Defers first source (restoreFields sources.onUse source done fields) ids
      fun ids table => Labelled first ids (Value.refsFields table)
  | [], _, _, hdone => defers_pure hdone
  | (name, field) :: rest, done, ids, hdone => by
    refine (defers_restore field ids).bind fun more value hvalue => ?_
    exact defers_restoreFields rest _ _
      (labelled_insert (Labelled.append hdone more) name hvalue)

end

end Tagged

def Frame.refs (frame : Frame) : List (ObjectRef Value) :=
  Value.refsFields frame.vars ++ Value.refsItems frame.stack ++ frame.result.refs

def Execution.refs (execution : Execution) : List (ObjectRef Value) :=
  execution.frames.flatMap Frame.refs

namespace Snapshot

open Restoring

variable {first : Objects} {source : Nat} {ids : List String} (sources : Sources)

theorem defers_restoreJson (json : Json) (ids : List String) :
    Defers first source (restoreJson sources.onUse source json) ids
      fun ids value => Labelled first ids value.refs :=
  Tagged.defers_restore sources _ ids

theorem defers_restoreInstruction (index : Nat) (form : InstructionForm) :
    Defers first source (restoreInstruction sources.onUse source index form) ids
      fun _ _ => True := by
  refine (defers_restoreJson sources form.operands ids).bind fun _ _ _ => ?_
  refine Defers.bind (P := fun _ _ => True) (defers_ofExcept fun _ _ => trivial) fun _ _ _ => ?_
  exact Defers.bind (P := fun _ _ => True) (defers_ofExcept fun _ _ => trivial) fun _ _ _ =>
    defers_pure trivial

theorem defers_restoreCode (forms : List InstructionForm) (index : Nat) :
    Defers first source (restoreCode sources.onUse source index forms) ids fun _ _ => True := by
  induction forms generalizing index ids with
  | nil => exact defers_pure trivial
  | cons form rest ih =>
    refine (defers_restoreInstruction sources index form).bind fun _ _ _ => ?_
    exact (ih (index + 1)).bind fun _ _ _ => defers_pure trivial

theorem defers_restoreVariables (members : List (String × Json)) {done : Table Value}
    (hdone : Labelled first ids (Value.refsFields done)) :
    Defers first source (restoreVariables sources.onUse source done members) ids
      fun ids table => Labelled first ids (Value.refsFields table) := by
  induction members generalizing done ids with
  | nil => exact defers_pure hdone
  | cons member rest ih =>
    refine (defers_restoreJson sources member.2 ids).bind fun more value hvalue => ih ?_
    exact labelled_insert (Labelled.append hdone more) _ hvalue

theorem defers_restoreTable (json : Json) :
    Defers first source (restoreTable sources.onUse source json) ids
      fun ids table => Labelled first ids (Value.refsFields table) := by
  unfold restoreTable
  split
  · exact defers_restoreVariables sources _ nofun
  · exact defers_pure nofun
  · exact defers_throw _

theorem defers_restoreFrame (form : FrameForm) :
    Defers first source (restoreFrame sources.onUse source form) ids
      fun ids frame => Labelled first ids frame.refs := by
  rw [restoreFrame_eq]
  refine (defers_restoreTable sources form.vars).bind fun more vars hvars => ?_
  refine (defers_restoreJson sources form.stack _).bind fun more' stack hstack => ?_
  split
  · next items =>
    refine (defers_restoreJson sources form.result _).bind fun more'' result hresult =>
      defers_pure (List.forall_mem_append.2 ⟨List.forall_mem_append.2 ⟨?_, ?_⟩, hresult⟩)
    · exact (Labelled.append (Labelled.append hvars more') more'')
    · intro ref href
      obtain ⟨value, hvalue, href⟩ := Value.mem_refsItems.1 href
      refine Labelled.append hstack more'' ref (Value.mem_refsItems.2 ⟨value, ?_, href⟩)
      exact List.mem_reverse.1 hvalue
  · exact defers_throw _

theorem defers_restoreFrames (forms : List FrameForm) :
    Defers first source (restoreFrames sources.onUse source forms) ids
      fun ids frames => Labelled first ids (frames.flatMap Frame.refs) := by
  induction forms generalizing ids with
  | nil => exact defers_pure nofun
  | cons form rest ih =>
    refine (defers_restoreFrame sources form).bind fun more frame hframe => ?_
    refine ih.bind fun more' frames hframes => defers_pure ?_
    rw [List.flatMap_cons]
    exact List.forall_mem_append.2 ⟨Labelled.append hframe more', hframes⟩

theorem defers_restoreIndex (json : Json) :
    Defers first source (restoreIndex sources.onUse source json) ids fun _ _ => True := by
  refine (defers_restoreJson sources json ids).bind fun more value hvalue => ?_
  refine defers_get fun store => ?_
  cases value with
  | int n =>
    dsimp only
    split
    · exact defers_pure trivial
    · exact defers_throw _
  | _ => exact defers_throw _

theorem defers_restoreExecution (envelope : Envelope) :
    Defers first source (restoreExecution sources.onUse source envelope) ids
      fun ids execution => Labelled first ids execution.refs := by
  unfold restoreExecution
  dsimp only
  split
  · exact Defers.bind (P := fun _ _ => False) (defers_throw _) fun _ _ h => h.elim
  refine (defers_restoreCode sources envelope.instructions 0).bind fun _ code _ => ?_
  refine Defers.bind (P := fun _ _ => True) (defers_ofExcept fun _ _ => trivial) fun _ _ _ => ?_
  refine Defers.bind (P := fun _ _ => True) (defers_ofExcept fun _ _ => trivial) fun _ program _ => ?_
  refine (defers_restoreFrames sources envelope.frames).bind fun _ frames hframes => ?_
  refine (defers_restoreIndex sources envelope.index).bind fun more index _ => ?_
  refine Defers.bind (P := fun ids _ => Labelled first ids (frames.flatMap Frame.refs))
    (defers_ofExcept fun _ _ => Labelled.append hframes more) fun _ mark hframes => ?_
  split
  · exact Defers.bind (P := fun _ _ => False) (defers_throw _) fun _ _ h => h.elim
  split
  · next execution hfound =>
    refine defers_pure ?_
    rw [Execution.refs, (eq_of_ofFrames? hfound).2.2]
    exact hframes
  · exact defers_throw _

end Snapshot

open Restoring in
theorem Execution.lists_ofSnapshot (sources : Sources) (text : String) (store : Objects) :
    ∃ ids, (store.addSource sources.resolvers).2.Lists store.sources.size ids
        ((ofSnapshot sources.onUse text).run.run store).2 ∧
      ∀ execution, ((ofSnapshot sources.onUse text).run.run store).1 = .ok execution →
        ∀ ref ∈ execution.refs, (store.addSource sources.resolvers).2.Labels ids ref := by
  have hreads : Defers (store.addSource sources.resolvers).2 store.sources.size
      (((Document.parse? text.toList).bind Snapshot.readEnvelope).elim (throw .json)
        (Snapshot.restoreExecution sources.onUse store.sources.size)) []
      fun ids execution => Labelled (store.addSource sources.resolvers).2 ids execution.refs := by
    cases (Document.parse? text.toList).bind Snapshot.readEnvelope
    · exact defers_throw _
    · exact Snapshot.defers_restoreExecution sources _
  obtain ⟨ids, hlists, hlabels⟩ := hreads _ (.refl _ _)
  rw [run_ofSnapshot]
  exact ⟨ids, hlists, hlabels⟩

end DurableScript
