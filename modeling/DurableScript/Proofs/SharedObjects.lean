import DurableScript.Proofs.Persistence
import DurableScript.Proofs.Rereading

/-!
Host objects that are looked up as a text is read. Each place of the text gets an object of its own,
unless the resolver answers with one that it has already, so that what was shared before need not be
shared after. Main statement: `eager_reading_parts_objects`.
-/

namespace DurableScript

variable {objects : Objects} {R : ObjectRef Value → ObjectRef Value → Prop} {execution : Execution}
  {first : Nat}

/-- The resolvers are asked as the text is read, and the objects that they have already are numbered
below `first`. -/
structure Sources.Eager (sources : Sources) (first : Nat) : Prop where
  atOnce : sources.deferred = false
  held : ∀ {id serial}, Resolver.serial? sources.resolvers id = some serial → serial < first

/-- The second reference is ready, and holds what the resolvers answer for the id of the first: an
object that they have already, or a new one. -/
def Value.Rebuilt (resolvers : List Resolver) (first : Nat) (objects : Objects)
    (ref ref' : ObjectRef Value) : Prop :=
  ∃ id serial object, objects.persisted ref = some (.reference id) ∧
    Resolver.answer? resolvers id = some object ∧ ref' = .ready serial object ∧
    (Resolver.serial? resolvers id = some serial ∨
      Resolver.serial? resolvers id = none ∧ first ≤ serial)

open Restoring in
theorem finds_rebuilt {sources : Sources} (heager : sources.Eager first) (source : Nat)
    {ref : ObjectRef Value}
    (hanswer : ∀ id, objects.persisted ref = some (.reference id) →
      (Resolver.answer? sources.resolvers id).isSome) :
    Finds (fun store => store.Asks sources.resolvers source ∧ first ≤ store.issued) sources source
      objects (Value.Rebuilt sources.resolvers first objects) ref := by
  rintro id hid store ⟨hasks, hfirst⟩
  obtain ⟨object, hobject⟩ := Option.isSome_iff_exists.1 (hanswer id hid)
  obtain ⟨value, after, hgives⟩ := exists_gives_reference heager.atOnce hasks hobject
  obtain ⟨serial, found, hfound, rfl, hasks', hcells, hserial⟩ :=
    found_of_gives_reference heager.atOnce hasks hgives
  have hgrown : store.Grown after := ⟨Nat.le_of_eq (congrArg Array.size hcells).symm, by
    funext cell
    rw [Objects.found?, Objects.found?, hcells]⟩
  refine ⟨_, after, hgives, hgrown, ⟨hasks', ?_⟩, _, rfl, id, serial, found, hid, hfound, rfl, ?_⟩
  · omega
  · exact hserial.imp And.left fun h => ⟨h.1, by omega⟩

/-- The objects of both references are ready, and if they are one it is numbered below `first`. -/
def ObjectRef.Parted (first : Nat) (ref ref' : ObjectRef Value) : Prop :=
  ∃ serial object other object', ref = .ready serial object ∧ ref' = .ready other object' ∧
    (serial = other → serial < first)

theorem ObjectRef.Parted.symm {ref ref' : ObjectRef Value} (h : ref.Parted first ref') :
    ref'.Parted first ref := by
  obtain ⟨serial, object, other, object', rfl, rfl, hlt⟩ := h
  exact ⟨other, object', serial, object, rfl, rfl, fun heq => heq ▸ hlt heq.symm⟩

namespace Value

def Serials (first low high : Nat) (value : Value) : Prop :=
  ∀ ref ∈ value.refs, ∃ serial object, ref = .ready serial object ∧
    (serial < first ∨ low ≤ serial ∧ serial < high)

def Apart (first : Nat) (left right : Value) : Prop :=
  ∀ ref ∈ left.refs, ∀ ref' ∈ right.refs, ref.Parted first ref'

structure Slots (first low high : Nat) (values : List Value) : Prop where
  serials : ∀ value ∈ values, value.Serials first low high
  apart : values.Pairwise (Apart first)

variable {low middle high : Nat} {left right value : Value} {values others : List Value}

theorem Serials.widen (h : value.Serials first low high) {low' high' : Nat} (hlow : low' ≤ low)
    (hhigh : high ≤ high') : value.Serials first low' high' := by
  intro ref href
  obtain ⟨serial, object, rfl, hserial⟩ := h ref href
  exact ⟨serial, object, rfl, by omega⟩

theorem Serials.apart (h : left.Serials first low middle) (h' : right.Serials first middle high) :
    left.Apart first right := by
  intro r hr q hq
  obtain ⟨serial, object, rfl, hserial⟩ := h r hr
  obtain ⟨other, object', rfl, hother⟩ := h' q hq
  exact ⟨serial, object, other, object', rfl, rfl, by omega⟩

theorem Apart.symm (h : left.Apart first right) : right.Apart first left :=
  fun ref href ref' href' => (h ref' href' ref href).symm

namespace Slots

theorem nil : Slots first low high [] := ⟨nofun, .nil⟩

theorem singleton (h : value.Serials first low high) : Slots first low high [value] :=
  ⟨List.forall_mem_singleton.2 h, List.pairwise_singleton ..⟩

theorem append (h : Slots first low middle values) (h' : Slots first middle high others)
    (hlow : low ≤ middle) (hhigh : middle ≤ high) : Slots first low high (values ++ others) := by
  refine ⟨List.forall_mem_append.2 ⟨fun value hvalue => ?_, fun value hvalue => ?_⟩,
    List.pairwise_append.2 ⟨h.apart, h'.apart, fun left hleft right hright => ?_⟩⟩
  · exact (h.serials value hvalue).widen (Nat.le_refl _) hhigh
  · exact (h'.serials value hvalue).widen hlow (Nat.le_refl _)
  · exact (h.serials left hleft).apart (h'.serials right hright)

theorem reverse (h : Slots first low high values) : Slots first low high values.reverse :=
  ⟨fun value hvalue => h.serials value (List.mem_reverse.1 hvalue),
    List.pairwise_reverse.2 (h.apart.imp Apart.symm)⟩

theorem insert {table : Table Value} (h : Slots first low middle (table.map Prod.snd)) (name : String)
    (hvalue : value.Serials first middle high) (hlow : low ≤ middle) (hhigh : middle ≤ high) :
    Slots first low high ((Table.insert name value table).map Prod.snd) := by
  induction table with
  | nil => exact singleton (hvalue.widen hlow (Nat.le_refl _))
  | cons entry rest ih =>
    obtain ⟨key, old⟩ := entry
    have hserials := h.serials
    obtain ⟨hold, hrest⟩ := List.pairwise_cons.1 h.apart
    rw [List.map_cons, List.forall_mem_cons] at hserials
    rw [Table.insert]
    split
    · refine ⟨List.forall_mem_cons.2 ⟨hvalue.widen hlow (Nat.le_refl _), fun other hother => ?_⟩,
        List.pairwise_cons.2 ⟨fun other hother => ?_, hrest⟩⟩
      · exact (hserials.2 other hother).widen (Nat.le_refl _) hhigh
      · exact ((hserials.2 other hother).apart hvalue).symm
    · have hinserted := ih ⟨hserials.2, hrest⟩
      refine ⟨List.forall_mem_cons.2 ⟨hserials.1.widen (Nat.le_refl _) hhigh, hinserted.serials⟩,
        List.pairwise_cons.2 ⟨fun other hother => ?_, hinserted.apart⟩⟩
      obtain ⟨entry, hentry, rfl⟩ := List.mem_map.1 hother
      rcases Table.mem_of_mem_insert hentry with rfl | hentry
      · exact hserials.1.apart hvalue
      · exact hold _ (List.mem_map_of_mem hentry)

theorem list (h : Slots first low high values) : (Value.list values).Serials first low high := by
  intro ref href
  obtain ⟨value, hvalue, href⟩ := mem_refsItems.1 href
  exact h.serials value hvalue ref href

theorem record {fields : List (String × Value)} (h : Slots first low high (fields.map Prod.snd)) :
    (Value.record fields).Serials first low high := by
  intro ref href
  obtain ⟨entry, hentry, href⟩ := mem_refsFields.1 href
  exact h.serials entry.2 (List.mem_map_of_mem hentry) ref href

end Slots

end Value

namespace Restoring

variable {sources : Sources} {source : Nat}

def Issues {α : Type} (sources : Sources) (source : Nat) (x : Restoring α)
    (P : Nat → Nat → α → Prop) : Prop :=
  ∀ {store : Objects} {a : α} {after : Objects}, store.Asks sources.resolvers source →
    x.Gives store a after →
    after.Asks sources.resolvers source ∧ store.issued ≤ after.issued ∧
      P store.issued after.issued a

theorem issues_adopt (object : HostObject Value) :
    Issues sources source (adopt object) (Value.Serials first) := by
  intro store value after hasks h
  obtain ⟨rfl, rfl⟩ := gives_adopt_iff.1 h
  refine ⟨hasks, Nat.le_succ _, List.forall_mem_singleton.2 ?_⟩
  exact ⟨store.issued, object, rfl, .inr ⟨Nat.le_refl _, Nat.lt_succ_self _⟩⟩

theorem issues_reference (heager : sources.Eager first) (id : String) :
    Issues sources source (reference sources source id) (Value.Serials first) := by
  intro store value after hasks h
  obtain ⟨serial, object, -, rfl, hasks', -, hserial⟩ :=
    found_of_gives_reference heager.atOnce hasks h
  refine ⟨hasks', by omega, List.forall_mem_singleton.2 ⟨serial, object, rfl, ?_⟩⟩
  obtain ⟨hheld, -⟩ | ⟨-, rfl, hissued⟩ := hserial
  · exact .inl (heager.held hheld)
  · exact .inr ⟨Nat.le_refl _, by omega⟩

end Restoring

namespace Tagged

open Restoring Value

variable {sources : Sources} {source : Nat}

mutual

theorem issues_restore (heager : sources.Eager first) :
    ∀ tagged : Tagged, Issues sources source (tagged.restore sources source) (Serials first)
  | null, _, _, _, hasks, h | bool _, _, _, _, hasks, h | int _, _, _, _, hasks, h
  | float _, _, _, _, hasks, h | str _, _, _, _, hasks, h => by
    obtain ⟨rfl, rfl⟩ := gives_pure_iff.1 h
    exact ⟨hasks, Nat.le_refl _, nofun⟩
  | list items, _, _, _, hasks, h => by
    rw [restore] at h
    obtain ⟨values, _, hitems, h⟩ := gives_bind_iff.1 h
    obtain ⟨rfl, rfl⟩ := gives_pure_iff.1 h
    obtain ⟨hasks, hle, hslots⟩ := issues_restoreItems heager items hasks hitems
    exact ⟨hasks, hle, hslots.list⟩
  | record fields, _, _, _, hasks, h => by
    rw [restore] at h
    obtain ⟨table, _, hfields, h⟩ := gives_bind_iff.1 h
    obtain ⟨rfl, rfl⟩ := gives_pure_iff.1 h
    obtain ⟨hasks, hle, hslots⟩ := issues_restoreFields heager fields [] hasks hfields
    exact ⟨hasks, hle, (hslots _ (Nat.le_refl _) .nil).record⟩
  | reference id, _, _, _, hasks, h => issues_reference heager id hasks h
  | blob typeName payload, _, _, _, hasks, h => by
    obtain ⟨_, object, -, -, h⟩ := gives_blob h
    exact issues_adopt object hasks h
  | fault e, _, _, _, _, h => absurd h not_gives_throw

theorem issues_restoreItems (heager : sources.Eager first) : ∀ items : List Tagged,
    Issues sources source (restoreItems sources source items) (Slots first)
  | [], _, _, _, hasks, h => by
    obtain ⟨rfl, rfl⟩ := gives_pure_iff.1 h
    exact ⟨hasks, Nat.le_refl _, .nil⟩
  | item :: rest, _, _, _, hasks, h => by
    rw [restoreItems] at h
    obtain ⟨value, _, hitem, h⟩ := gives_bind_iff.1 h
    obtain ⟨values, _, hrest, h⟩ := gives_bind_iff.1 h
    obtain ⟨rfl, rfl⟩ := gives_pure_iff.1 h
    obtain ⟨hasks, hle, hserials⟩ := issues_restore heager item hasks hitem
    obtain ⟨hasks, hle', hslots⟩ := issues_restoreItems heager rest hasks hrest
    exact ⟨hasks, hle.trans hle', (Slots.singleton hserials).append hslots hle hle'⟩

theorem issues_restoreFields (heager : sources.Eager first) :
    ∀ (fields : List (String × Tagged)) (done : Table Value),
      Issues sources source (restoreFields sources source done fields) fun middle high table =>
        ∀ low ≤ middle, Slots first low middle (done.map Prod.snd) →
          Slots first low high (table.map Prod.snd)
  | [], done, _, _, _, hasks, h => by
    obtain ⟨rfl, rfl⟩ := gives_pure_iff.1 h
    exact ⟨hasks, Nat.le_refl _, fun _ _ hdone => hdone⟩
  | (name, field) :: rest, done, _, _, _, hasks, h => by
    rw [restoreFields] at h
    obtain ⟨value, _, hvalue, h⟩ := gives_bind_iff.1 h
    obtain ⟨hasks, hle, hserials⟩ := issues_restore heager field hasks hvalue
    obtain ⟨hasks, hle', hslots⟩ := issues_restoreFields heager rest _ hasks h
    exact ⟨hasks, hle.trans hle', fun low hlow hdone =>
      hslots low (hlow.trans hle) (hdone.insert name hserials hlow hle)⟩

end

end Tagged

namespace Snapshot

open Restoring Value

variable {sources : Sources} {source : Nat} (heager : sources.Eager first)

include heager

theorem issues_restoreJson (json : Json) :
    Issues sources source (restoreJson sources source json) (Serials first) :=
  Tagged.issues_restore heager _

theorem issues_restoreInstruction (index : Nat) (form : InstructionForm) :
    Issues sources source (restoreInstruction sources source index form) fun _ _ _ => True := by
  intro store instruction after hasks h
  obtain ⟨_, _, hvalue, h⟩ := gives_bind_iff.1 h
  obtain ⟨hasks, hle, -⟩ := issues_restoreJson heager _ hasks hvalue
  obtain ⟨_, _, hread, h⟩ := gives_bind_iff.1 h
  obtain ⟨-, rfl⟩ := gives_ofExcept_iff.1 hread
  obtain ⟨_, _, hread, h⟩ := gives_bind_iff.1 h
  obtain ⟨-, rfl⟩ := gives_ofExcept_iff.1 hread
  obtain ⟨-, rfl⟩ := gives_pure_iff.1 h
  exact ⟨hasks, hle, trivial⟩

theorem issues_restoreCode (forms : List InstructionForm) (index : Nat) :
    Issues sources source (restoreCode sources source index forms) fun _ _ _ => True := by
  induction forms generalizing index with
  | nil =>
    intro store code after hasks h
    obtain ⟨rfl, rfl⟩ := gives_pure_iff.1 h
    exact ⟨hasks, Nat.le_refl _, trivial⟩
  | cons form rest ih =>
    intro store code after hasks h
    obtain ⟨instruction, _, hinstruction, h⟩ := gives_bind_iff.1 h
    obtain ⟨others, _, hothers, h⟩ := gives_bind_iff.1 h
    obtain ⟨rfl, rfl⟩ := gives_pure_iff.1 h
    obtain ⟨hasks, hle, -⟩ := issues_restoreInstruction heager index form hasks hinstruction
    obtain ⟨hasks, hle', -⟩ := ih (index + 1) hasks hothers
    exact ⟨hasks, hle.trans hle', trivial⟩

theorem issues_restoreVariables (members : List (String × Json)) (done : Table Value) :
    Issues sources source (restoreVariables sources source done members) fun middle high table =>
      ∀ low ≤ middle, Slots first low middle (done.map Prod.snd) →
        Slots first low high (table.map Prod.snd) := by
  induction members generalizing done with
  | nil =>
    intro store table after hasks h
    obtain ⟨rfl, rfl⟩ := gives_pure_iff.1 h
    exact ⟨hasks, Nat.le_refl _, fun _ _ hdone => hdone⟩
  | cons member rest ih =>
    intro store table after hasks h
    rw [restoreVariables] at h
    obtain ⟨value, _, hvalue, h⟩ := gives_bind_iff.1 h
    obtain ⟨hasks, hle, hserials⟩ := issues_restoreJson heager _ hasks hvalue
    obtain ⟨hasks, hle', hslots⟩ := ih _ hasks h
    exact ⟨hasks, hle.trans hle', fun low hlow hdone =>
      hslots low (hlow.trans hle) (hdone.insert _ hserials hlow hle)⟩

theorem issues_restoreTable (json : Json) :
    Issues sources source (restoreTable sources source json) fun low high table =>
      Slots first low high (table.map Prod.snd) := by
  intro store table after hasks h
  unfold restoreTable at h
  split at h
  · next members =>
    obtain ⟨hasks, hle, hslots⟩ := issues_restoreVariables heager members [] hasks h
    exact ⟨hasks, hle, hslots _ (Nat.le_refl _) .nil⟩
  · obtain ⟨rfl, rfl⟩ := gives_pure_iff.1 h
    exact ⟨hasks, Nat.le_refl _, .nil⟩
  · exact absurd h not_gives_throw

theorem slots_of_restoreJson {json : Json} {store after : Objects} {items : List Value}
    (hasks : store.Asks sources.resolvers source)
    (h : (restoreJson sources source json).Gives store (.list items) after) :
    after.Asks sources.resolvers source ∧ store.issued ≤ after.issued ∧
      Slots first store.issued after.issued items := by
  unfold restoreJson at h
  generalize Tagged.ofJson json = tagged at h
  cases tagged with
  | list forms =>
    obtain ⟨values, _, hitems, h⟩ := gives_bind_iff.1 h
    obtain ⟨h, rfl⟩ := gives_pure_iff.1 h
    cases h
    exact Tagged.issues_restoreItems heager forms hasks hitems
  | record fields =>
    obtain ⟨_, _, -, h⟩ := gives_bind_iff.1 h
    cases (gives_pure_iff.1 h).1
  | reference id =>
    obtain ⟨_, _, -, h, -⟩ := found_of_gives_reference heager.atOnce hasks h
    cases h
  | blob typeName payload =>
    obtain ⟨_, _, -, -, h⟩ := gives_blob h
    cases (gives_adopt_iff.1 h).1
  | fault => exact absurd h not_gives_throw
  | null | bool | int | float | str => cases (gives_pure_iff.1 h).1

theorem issues_restoreFrame (form : FrameForm) :
    Issues sources source (restoreFrame sources source form) fun low high frame =>
      Slots first low high frame.values := by
  intro store frame after hasks h
  obtain ⟨vars, items, result, _, _, hvars, hstack, hresult, rfl⟩ := gives_restoreFrame_iff.1 h
  obtain ⟨hasks, hle, hvars⟩ := issues_restoreTable heager _ hasks hvars
  obtain ⟨hasks, hle', hstack⟩ := slots_of_restoreJson heager hasks hstack
  obtain ⟨hasks, hle'', hresult⟩ := issues_restoreJson heager _ hasks hresult
  exact ⟨hasks, hle.trans (hle'.trans hle''), (hvars.append hstack.reverse hle hle').append
    (.singleton hresult) (hle.trans hle') hle''⟩

theorem issues_restoreFrames (forms : List FrameForm) :
    Issues sources source (restoreFrames sources source forms) fun low high frames =>
      Slots first low high (frames.flatMap Frame.values) := by
  induction forms with
  | nil =>
    intro store frames after hasks h
    obtain ⟨rfl, rfl⟩ := gives_pure_iff.1 h
    exact ⟨hasks, Nat.le_refl _, .nil⟩
  | cons form rest ih =>
    intro store frames after hasks h
    obtain ⟨frame, _, hframe, h⟩ := gives_bind_iff.1 h
    obtain ⟨others, _, hothers, h⟩ := gives_bind_iff.1 h
    obtain ⟨rfl, rfl⟩ := gives_pure_iff.1 h
    obtain ⟨hasks, hle, hframe⟩ := issues_restoreFrame heager form hasks hframe
    obtain ⟨hasks, hle', hothers⟩ := ih hasks hothers
    exact ⟨hasks, hle.trans hle', hframe.append hothers hle hle'⟩

omit heager in
theorem apart_of_restoreExecution (heager : sources.Eager first) {envelope : Envelope}
    {store after : Objects} {execution : Execution} (hasks : store.Asks sources.resolvers source)
    (h : (restoreExecution sources source envelope).Gives store execution after) :
    (execution.frames.flatMap Frame.values).Pairwise (Apart first) := by
  obtain ⟨_, _, _, frames, _, _, _, _, -, hcode, -, -, hframes, -, -, hfound⟩ :=
    gives_restoreExecution_iff.1 h
  obtain ⟨hasks, -⟩ := issues_restoreCode heager _ _ hasks hcode
  rw [(eq_of_ofFrames? hfound).2.2]
  exact (issues_restoreFrames heager _ hasks hframes).2.2.apart

end Snapshot

namespace Value

variable {R : ObjectRef Value → ObjectRef Value → Prop} {objects : Objects}

mutual

theorem mem_refs_of_mem_meetings : ∀ {left right : Value} {pair : ObjectRef Value × ObjectRef Value},
    pair ∈ meetings left right → pair.1 ∈ left.refs ∧ pair.2 ∈ right.refs
  | list _, right, _, h => by
    cases right with
    | list => exact mem_refsItems_of_mem_meetings h
    | _ => cases h
  | record _, right, _, h => by
    cases right with
    | record => exact mem_refsFields_of_mem_meetings h
    | _ => cases h
  | object _, right, _, h => by
    cases right with
    | object =>
      cases List.mem_singleton.1 h
      exact ⟨List.mem_singleton_self _, List.mem_singleton_self _⟩
    | _ => cases h
  | null, _, _, h | bool _, _, _, h | int _, _, _, h | float _, _, _, h | str _, _, _, h => nomatch h

theorem mem_refsItems_of_mem_meetings : ∀ {xs ys : List Value}
    {pair : ObjectRef Value × ObjectRef Value}, pair ∈ meetingsItems xs ys →
      pair.1 ∈ refsItems xs ∧ pair.2 ∈ refsItems ys
  | _ :: _, _ :: _, _, h => by
    rcases List.mem_append.1 h with h | h
    · obtain ⟨h, h'⟩ := mem_refs_of_mem_meetings h
      exact ⟨List.mem_append_left _ h, List.mem_append_left _ h'⟩
    · obtain ⟨h, h'⟩ := mem_refsItems_of_mem_meetings h
      exact ⟨List.mem_append_right _ h, List.mem_append_right _ h'⟩

theorem mem_refsFields_of_mem_meetings : ∀ {xs ys : List (String × Value)}
    {pair : ObjectRef Value × ObjectRef Value}, pair ∈ meetingsFields xs ys →
      pair.1 ∈ refsFields xs ∧ pair.2 ∈ refsFields ys
  | (name, x) :: rest, ys, pair, h => by
    rcases List.mem_append.1 h with h | h
    · split at h
      · next y hfind =>
        obtain ⟨h, h'⟩ := mem_refs_of_mem_meetings h
        exact ⟨List.mem_append_left _ h,
          mem_refsFields.2 ⟨(name, y), Table.mem_of_find? hfind, h'⟩⟩
      · cases h
    · obtain ⟨h, h'⟩ := mem_refsFields_of_mem_meetings h
      exact ⟨List.mem_append_right _ h, h'⟩

end

mutual

theorem Matches.eq_of_mem_meetings : ∀ {value other : Value}, value.Keepable objects →
    value.Matches R other → ∀ pair ∈ other.meetings other, pair.1 = pair.2
  | null, _, _, rfl | bool _, _, _, rfl | int _, _, _, rfl | float _, _, _, rfl =>
    List.forall_mem_nil _
  | str _, _, _, rfl => List.forall_mem_nil _
  | list _, _, hkeep, ⟨_, rfl, h⟩ => MatchesItems.eq_of_mem_meetings hkeep h
  | record fields, _, hkeep, ⟨others, rfl, h⟩ => by
    have hkeys : Table.keys others = Table.keys fields :=
      List.map_eq_of_forall₂ (matchesFields_iff.1 h) fun _ _ hentry => hentry.1.symm
    have hdistinct : Table.Distinct others := (congrArg List.Nodup hkeys).mpr hkeep.1
    exact MatchesFields.eq_of_mem_meetings (fun entry => Table.find?_of_mem hdistinct) hkeep.2 h
  | object _, _, _, ⟨_, rfl, _⟩ => by
    intro pair hpair
    cases List.mem_singleton.1 hpair
    rfl
termination_by structural value => value

theorem MatchesItems.eq_of_mem_meetings : ∀ {items others : List Value},
    KeepableItems objects items → MatchesItems R items others →
      ∀ pair ∈ meetingsItems others others, pair.1 = pair.2
  | [], _, _, rfl => List.forall_mem_nil _
  | _ :: _, _, hkeep, ⟨_, _, rfl, h, hrest⟩ => List.forall_mem_append.2
    ⟨Matches.eq_of_mem_meetings hkeep.1 h, MatchesItems.eq_of_mem_meetings hkeep.2 hrest⟩
termination_by structural items => items

theorem MatchesFields.eq_of_mem_meetings {table : Table Value} :
    ∀ {fields others : List (String × Value)},
      (∀ entry ∈ others, Table.find? entry.1 table = some entry.2) →
      KeepableFields objects fields → MatchesFields R fields others →
        ∀ pair ∈ meetingsFields others table, pair.1 = pair.2
  | [], _, _, _, rfl => List.forall_mem_nil _
  | (_, _) :: _, _, hfind, hkeep, ⟨_, _, rfl, h, hrest⟩ => by
    rw [List.forall_mem_cons] at hfind
    rw [meetingsFields, hfind.1]
    exact List.forall_mem_append.2 ⟨Matches.eq_of_mem_meetings hkeep.1 h,
      MatchesFields.eq_of_mem_meetings hfind.2 hkeep.2 hrest⟩
termination_by structural fields => fields

end

theorem Matches.looseEq_self {value other : Value} (hkeep : value.Keepable objects)
    (h : value.Matches R other) (store : Objects) :
    looseEq store other other = agrees value value := by
  have hall : ((other.meetings other).all fun pair => store.sameRef pair.1 pair.2) = true :=
    List.all_eq_true.2 fun pair hpair => by
      rw [h.eq_of_mem_meetings hkeep pair hpair]
      exact sameRef_self store pair.2
  rw [Value.looseEq_eq, hall, Bool.and_true, h.agrees_eq h]

end Value

def Execution.values (execution : Execution) : List Value := execution.frames.flatMap Frame.values

theorem Frame.Matches.values {frame other : Frame} (h : frame.Matches R other) :
    List.Forall₂ (Value.Matches R) frame.values other.values := by
  refine List.rel_append (List.rel_append ?_ h.stack) (.cons h.result .nil)
  exact List.forall₂_map_left_iff.2 (List.forall₂_map_right_iff.2 (h.vars.imp fun _ _ => And.right))

theorem Execution.Matches.values {other : Execution} (h : execution.Matches R other) :
    List.Forall₂ (Value.Matches R) execution.values other.values :=
  List.rel_flatMap h.frames fun _ _ => Frame.Matches.values

theorem Execution.Keepable.values (h : execution.Keepable objects) :
    ∀ value ∈ execution.values, value.Keepable objects := by
  intro value hvalue
  obtain ⟨frame, hframe, hvalue⟩ := List.mem_flatMap.1 hvalue
  exact ((h.frames frame hframe).values value hvalue).1

namespace Value

/-- The resolvers answer both ids with one object that they have already. -/
def Rejoined (resolvers : List Resolver) (objects : Objects)
    (pair : ObjectRef Value × ObjectRef Value) : Prop :=
  ∃ id id' serial, objects.persisted pair.1 = some (.reference id) ∧
    objects.persisted pair.2 = some (.reference id') ∧
    Resolver.serial? resolvers id = some serial ∧ Resolver.serial? resolvers id' = some serial

variable {resolvers : List Resolver} {pair : ObjectRef Value × ObjectRef Value}

theorem sameRef_rebuilt_iff {store : Objects} {pair' : ObjectRef Value × ObjectRef Value}
    (h : MatchesPair (Rebuilt resolvers first objects) pair pair')
    (hparted : pair'.1.Parted first pair'.2) :
    store.sameRef pair'.1 pair'.2 = true ↔ Rejoined resolvers objects pair := by
  obtain ⟨⟨id, serial, object, hid, -, hr, hserial⟩, id', other, object', hid', -, hq, hother⟩ := h
  obtain ⟨_, _, _, _, hr', hq', hlt⟩ := hparted
  cases hr.symm.trans hr'
  cases hq.symm.trans hq'
  rw [hr, hq]
  refine beq_iff_eq.trans ⟨?_, ?_⟩
  · rintro rfl
    -- Neither object is new, for a new one has another number.
    have hold := hlt rfl
    obtain hserial | ⟨-, hle⟩ := hserial
    · obtain hother | ⟨-, hle⟩ := hother
      · exact ⟨id, id', serial, hid, hid', hserial, hother⟩
      · omega
    · omega
  · rintro ⟨known, known', held, hknown, hknown', hheld, hheld'⟩
    cases hid.symm.trans hknown
    cases hid'.symm.trans hknown'
    simp_all

theorem looseEq_rebuilt_iff {store : Objects} {values others : List Value}
    (hkeep : ∀ value ∈ values, value.Keepable objects)
    (h : List.Forall₂ (Matches (Rebuilt resolvers first objects)) values others)
    (hapart : others.Pairwise (Apart first)) {i j : Nat} {left right left' right' : Value}
    (hleft : values[i]? = some left) (hright : values[j]? = some right)
    (hleft' : others[i]? = some left') (hright' : others[j]? = some right') :
    looseEq store left' right' = true ↔ left.agrees right = true ∧
      (i = j ∨ ∀ pair ∈ left.meetings right, Rejoined resolvers objects pair) := by
  have hmatch {k : Nat} {value other : Value} (hvalue : values[k]? = some value)
      (hother : others[k]? = some other) : value.Matches (Rebuilt resolvers first objects) other := by
    obtain ⟨hlt, rfl⟩ := List.getElem?_eq_some_iff.1 hvalue
    obtain ⟨hlt', rfl⟩ := List.getElem?_eq_some_iff.1 hother
    exact h.get hlt hlt'
  have hmatches := hmatch hleft hleft'
  by_cases hij : i = j
  · cases hij
    cases hleft.symm.trans hright
    cases hleft'.symm.trans hright'
    rw [hmatches.looseEq_self (hkeep left (List.mem_of_getElem? hleft))]
    exact (and_iff_left (.inl rfl)).symm
  · have happly : left'.Apart first right' := by
      rw [List.pairwise_iff_getElem] at hapart
      obtain ⟨hlt, rfl⟩ := List.getElem?_eq_some_iff.1 hleft'
      obtain ⟨hlt', rfl⟩ := List.getElem?_eq_some_iff.1 hright'
      rcases Nat.lt_or_gt_of_ne hij with hij | hij
      · exact hapart i j hlt hlt' hij
      · exact (hapart j i hlt' hlt hij).symm
    have hmatches' := hmatch hright hright'
    rw [looseEq_iff, hmatches.agrees_eq hmatches', or_iff_right hij]
    refine and_congr_right' (hmatches.forall_mem_meetings_iff hmatches' fun pair pair' hpair hmem => ?_)
    obtain ⟨hleft, hright⟩ := mem_refs_of_mem_meetings hmem
    exact sameRef_rebuilt_iff hpair (happly _ hleft _ hright)

theorem rejoined_anew_iff (hanew : ∀ id, Resolver.serial? resolvers id = none) {left right : Value}
    (hkeep : left.Keepable objects) {i j : Nat} (hplace : i = j → left = right) :
    left.agrees right = true ∧ (i = j ∨ ∀ pair ∈ left.meetings right, Rejoined resolvers objects pair) ↔
      looseEq objects left right = true ∧ (i = j ∨ left.meetings right = []) := by
  by_cases hij : i = j
  · obtain rfl := hplace hij
    have hself : left.Matches Eq left := matches_self left fun _ _ => rfl
    rw [hself.looseEq_self hkeep, or_iff_left_of_imp fun _ => hij, or_iff_left_of_imp fun _ => hij]
  · have hnone (pair : ObjectRef Value × ObjectRef Value) : ¬ Rejoined resolvers objects pair := by
      rintro ⟨id, _, serial, -, -, hserial, -⟩
      rw [hanew id] at hserial
      cases hserial
    rw [or_iff_right hij, or_iff_right hij, looseEq_iff]
    refine ⟨fun h => ?_, fun h => ⟨h.1.1, h.2 ▸ List.forall_mem_nil _⟩⟩
    have hnil := List.eq_nil_iff_forall_not_mem.2 fun pair hpair => hnone pair (h.2 pair hpair)
    exact ⟨⟨h.1, hnil ▸ List.forall_mem_nil _⟩, hnil⟩

theorem rejoined_of_sameRef (hcompatible : pair.1.Compatible pair.2)
    (hkept : ∃ id, objects.persisted pair.1 = some (.reference id) ∧
      (Resolver.serial? resolvers id).isSome)
    (h : objects.sameRef pair.1 pair.2 = true) : Rejoined resolvers objects pair := by
  obtain ⟨id, hid, hheld⟩ := hkept
  obtain ⟨serial, hserial⟩ := Option.isSome_iff_exists.1 hheld
  obtain hsame | ⟨id', hid', hother⟩ := Objects.Linked.of_sameRef h
  · have hpersisted : objects.persisted pair.1 = objects.persisted pair.2 :=
      Objects.persisted_eq_of_sameHandle hcompatible hsame
    exact ⟨id, id, serial, hid, hpersisted.symm.trans hid, hserial, hserial⟩
  · cases hid.symm.trans hid'
    exact ⟨id, id, serial, hid, hother, hserial, hserial⟩

end Value

theorem Execution.exists_text (htidy : execution.program.Tidy) (hkeep : execution.Keepable objects) :
    ∃ envelope, Snapshot.writeExecution objects execution = .ok envelope ∧
      execution.snapshot objects = .ok envelope.json.text ∧
      (envelope.json.levels ≤ Json.maxLevels → ∀ {sources store restored after},
        (Snapshot.restoreExecution sources store.sources.size envelope).Gives
          (store.addSource sources.resolvers).2 restored after →
        (ofSnapshot sources envelope.json.text).Gives store restored after) := by
  obtain ⟨envelope, hwrite, hreadable, -⟩ := Snapshot.exists_envelope htidy hkeep.formed
  refine ⟨envelope, hwrite, snapshot_eq_ok hwrite, ?_⟩
  intro hlevels sources store restored after hgives
  exact (ofSnapshot_text hreadable hlevels sources store).trans hgives

theorem Execution.exists_ofSnapshot_rebuilt (htidy : execution.program.Tidy)
    (hkeep : execution.Keepable objects) :
    ∃ envelope, Snapshot.writeExecution objects execution = .ok envelope ∧
      (envelope.json.levels ≤ Json.maxLevels → ∀ (sources : Sources) (store : Objects),
        sources.Eager store.issued →
        (∀ value ∈ execution.values, ∀ ref ∈ value.refs, ∀ id,
          objects.persisted ref = some (.reference id) →
            (Resolver.answer? sources.resolvers id).isSome) →
        ∃ restored after, (ofSnapshot sources envelope.json.text).Gives store restored after ∧
          execution.Matches (Value.Rebuilt sources.resolvers store.issued objects) restored ∧
          restored.values.Pairwise (Value.Apart store.issued)) := by
  obtain ⟨envelope, hwrite, hreadable, hreads⟩ := Snapshot.exists_envelope htidy hkeep.formed
  refine ⟨envelope, hwrite, fun hlevels sources store heager hanswer => ?_⟩
  have hasks := Objects.asks_addSource store sources.resolvers
  obtain ⟨restored, after, hgives, -, -, hmatches⟩ :=
    hreads hkeep.frames (fun frame hframe value hvalue ref href =>
      finds_rebuilt heager store.sources.size
      (hanswer value (List.mem_flatMap.2 ⟨frame, hframe, hvalue⟩) ref href))
      _ ⟨hasks, Nat.le_refl _⟩
  exact ⟨restored, after, (ofSnapshot_text hreadable hlevels sources store).trans hgives, hmatches,
    Snapshot.apart_of_restoreExecution heager hasks hgives⟩

/-- An execution whose values can be kept is written, and unless its text nests too deep it is found
again by a reader that looks every object up at once, if the resolvers know all of its ids. Two values
of it are then loosely equal if they agree but for their objects, and are at the same place or have
objects that meet in the comparison only where the resolvers answer both ids with one that they have
already. So resolvers that build every object anew keep the values equal that were, if they are at the
same place or have no objects that meet, and resolvers that build none keep all of them. -/
theorem eager_reading_parts_objects {objects : Objects} {execution : Execution}
    (htidy : execution.program.Tidy) (hkeep : execution.Keepable objects) :
    ∃ envelope, Snapshot.writeExecution objects execution = .ok envelope ∧
      execution.snapshot objects = .ok envelope.json.text ∧
      (envelope.json.levels ≤ Json.maxLevels → ∀ (sources : Sources) (store : Objects),
        sources.Eager store.issued →
        (∀ value ∈ execution.values, ∀ ref ∈ value.refs, ∀ id,
          objects.persisted ref = some (.reference id) →
            (Resolver.answer? sources.resolvers id).isSome) →
        ∃ restored after,
          (Execution.ofSnapshot sources envelope.json.text).Gives store restored after ∧
          execution.Matches (Value.Rebuilt sources.resolvers store.issued objects) restored ∧
          ∀ {i j : Nat} {left right left' right' : Value},
            execution.values[i]? = some left → execution.values[j]? = some right →
            restored.values[i]? = some left' → restored.values[j]? = some right' →
            (Value.looseEq after left' right' = true ↔ left.agrees right = true ∧
              (i = j ∨ ∀ pair ∈ left.meetings right,
                Value.Rejoined sources.resolvers objects pair)) ∧
            ((∀ id, Resolver.serial? sources.resolvers id = none) →
              (Value.looseEq after left' right' = true ↔
                Value.looseEq objects left right = true ∧ (i = j ∨ left.meetings right = []))) ∧
            ((∀ pair ∈ left.meetings right, pair.1.Compatible pair.2 ∧
                ∃ id, objects.persisted pair.1 = some (.reference id) ∧
                  (Resolver.serial? sources.resolvers id).isSome) →
              Value.looseEq objects left right = true →
              Value.looseEq after left' right' = true)) := by
  obtain ⟨envelope, hwrite, hread⟩ := Execution.exists_ofSnapshot_rebuilt htidy hkeep
  refine ⟨envelope, hwrite, Execution.snapshot_eq_ok hwrite, ?_⟩
  intro hlevels sources store heager hanswer
  obtain ⟨restored, after, hgives, hmatches, hapart⟩ := hread hlevels sources store heager hanswer
  refine ⟨restored, after, hgives, hmatches, ?_⟩
  intro i j left right left' right' hleft hright hleft' hright'
  have hequal : Value.looseEq after left' right' = true ↔ _ :=
    Value.looseEq_rebuilt_iff hkeep.values hmatches.values hapart hleft hright hleft' hright'
  refine ⟨hequal, fun hanew => hequal.trans ?_, fun hheld hbefore => hequal.2 ?_⟩
  · refine Value.rejoined_anew_iff hanew (hkeep.values left (List.mem_of_getElem? hleft)) ?_
    rintro rfl
    exact Option.some.inj (hleft.symm.trans hright)
  · obtain ⟨hagrees, hsame⟩ := (Value.looseEq_iff objects).1 hbefore
    refine ⟨hagrees, .inr fun pair hpair => ?_⟩
    obtain ⟨hcompatible, hkept⟩ := hheld pair hpair
    exact Value.rejoined_of_sameRef hcompatible hkept (hsame pair hpair)

def Resolver.accounts : Resolver where
  supports := fun id => "account:".toList.isPrefixOf id.toList
  resolve := fun id => ⟨"account", some (.reference id), [], id⟩

/-- Accounts that are not built again: all of them are the first object of the host. -/
def Resolver.ledger : Resolver := { accounts with held? := fun _ => some 0 }

def Value.account (serial : Nat) : Value :=
  .object (.ready serial (Resolver.accounts.resolve "account:1"))

namespace Execution

def pair (program : Program) (x y : Value) : Execution :=
  ⟨program, ⟨[("x", x), ("y", y)], [], .null, none⟩, [], 0, 0, none⟩

theorem keepable_pair {program : Program} (hsize : program.size < 2 ^ 63) {x y : Value}
    (hx : x.Keepable .empty ∧ x.Shallow) (hy : y.Keepable .empty ∧ y.Shallow) :
    (pair program x y).Keepable .empty where
  size_lt := hsize
  pc_le := Nat.zero_le _
  steps_lt := show 0 < 2 ^ 64 by decide
  frames := by
    refine List.forall_mem_singleton.2 ⟨?_, ?_, ?_, nofun⟩
    · simp [pair, Table.Distinct, Table.keys]
    · change ∀ name ∈ ["x", "y"], ¬ ['s', ':'] <+: name.toList
      decide
    · simpa [Frame.values, pair, Value.Keepable, Value.Shallow] using ⟨hx, hy⟩

def sharing : Execution :=
  pair ⟨#[⟨.pushVariable "x", none⟩, ⟨.pushVariable "y", none⟩, ⟨.operate .eq, none⟩,
    ⟨.setVariable "same", none⟩], []⟩ (.account 0) (.account 0)

theorem tidy_sharing : sharing.program.Tidy := by
  have hcompile : (Node.root [.assign "same"
      (.binary .eq (.ident "x" none) (.ident "y" none) none) none] none).compile [] =
        .ok sharing.program := rfl
  exact Program.tidy_of_compile hcompile

theorem keepable_account (serial : Nat) :
    (Value.account serial).Keepable .empty ∧ (Value.account serial).Shallow :=
  ⟨⟨"account:1", rfl⟩, trivial⟩

theorem keepable_sharing : sharing.Keepable .empty :=
  keepable_pair (by decide) (keepable_account 0) (keepable_account 0)

theorem known_sharing {resolver : Resolver} (h : resolver.supports "account:1" = true) :
    ∀ value ∈ sharing.values, ∀ ref ∈ value.refs, ∀ id,
      Objects.empty.persisted ref = some (.reference id) →
        (Resolver.answer? [resolver] id).isSome := by
  simp [values, frames, sharing, pair, Value.account, Frame.values, Value.refs, Objects.persisted,
    Resolver.accounts, Resolver.answer?, h]

section

variable {envelope : Snapshot.Envelope}
  (hwrite : Snapshot.writeExecution .empty sharing = .ok envelope)
include hwrite

theorem restore_sharing :
    (Snapshot.restoreExecution ⟨[.accounts], [], false⟩ 0 envelope).Gives
      (Objects.empty.addSource [.accounts]).2 (pair sharing.program (.account 0) (.account 1))
      ⟨2, #[⟨[.accounts], 2⟩], #[]⟩ := by
  cases hwrite
  rfl

theorem levels_sharing : envelope.json.levels ≤ Json.maxLevels := by
  cases hwrite
  decide

end

end Execution

theorem Resolver.serial?_accounts (id : String) : serial? [accounts] id = none := by
  simp [serial?, accounts]

theorem eager_accounts : Sources.Eager ⟨[.accounts], [], false⟩ 0 :=
  ⟨rfl, fun h => by cases h.symm.trans (Resolver.serial?_accounts _)⟩

theorem eager_ledger : Sources.Eager ⟨[.ledger], [], false⟩ 1 :=
  ⟨rfl, by simp [Resolver.serial?, Resolver.ledger, Option.bind_eq_some_iff]⟩

/-- Accounts that are built anew are equal to themselves, and accounts of the ledger to each other. -/
theorem eager_reading_parts_objects_sharing :
    Execution.sharing.program.Tidy ∧ Execution.sharing.Keepable .empty ∧
      ∃ text, Execution.sharing.snapshot .empty = .ok text ∧
        (∃ restored after,
          (Execution.ofSnapshot ⟨[.accounts], [], false⟩ text).Gives .empty restored after ∧
          ∀ value, restored.values[0]? = some value → Value.looseEq after value value = true) ∧
        ∃ restored after,
          (Execution.ofSnapshot ⟨[.ledger], [], false⟩ text).Gives ⟨1, #[], #[]⟩ restored after ∧
          ∀ x y, restored.values[0]? = some x → restored.values[1]? = some y →
            Value.looseEq after x y = true := by
  refine ⟨Execution.tidy_sharing, Execution.keepable_sharing, ?_⟩
  obtain ⟨envelope, hwrite, hsnapshot, hread⟩ :=
    eager_reading_parts_objects Execution.tidy_sharing Execution.keepable_sharing
  have hread := hread (Execution.levels_sharing hwrite)
  refine ⟨_, hsnapshot, ?_, ?_⟩
  · obtain ⟨restored, after, hgives, -, hequal⟩ :=
      hread ⟨[.accounts], [], false⟩ .empty eager_accounts (Execution.known_sharing (by decide))
    refine ⟨restored, after, hgives, fun value hvalue => ?_⟩
    exact (hequal rfl rfl hvalue hvalue).1.2 ⟨by decide, .inl rfl⟩
  · obtain ⟨restored, after, hgives, -, hequal⟩ :=
      hread ⟨[.ledger], [], false⟩ ⟨1, #[], #[]⟩ eager_ledger (Execution.known_sharing (by decide))
    refine ⟨restored, after, hgives, fun x y hx hy => ?_⟩
    refine (hequal rfl rfl hx hy).2.2 (List.forall_mem_singleton.2 ?_) (by decide)
    exact ⟨fun _ => rfl, "account:1", rfl, by decide⟩

/-- One account in two variables equals itself, and no longer does when it is looked up for each. -/
theorem shared_account_parted : Execution.sharing.values = [.account 0, .account 0, .null] ∧
      Value.looseEq .empty (.account 0) (.account 0) = true ∧
      ∃ text restored after, Execution.sharing.snapshot .empty = .ok text ∧
        (Execution.ofSnapshot ⟨[.accounts], [], false⟩ text).Gives .empty restored after ∧
        restored.values = [.account 0, .account 1, .null] ∧
        Value.looseEq after (.account 0) (.account 1) = false := by
  obtain ⟨envelope, hwrite, hsnapshot, hread⟩ :=
    Execution.exists_text Execution.tidy_sharing Execution.keepable_sharing
  exact ⟨rfl, by decide, _, _, _, hsnapshot,
    hread (Execution.levels_sharing hwrite) (Execution.restore_sharing hwrite), rfl, by decide⟩

end DurableScript
