import DurableScript.Proofs.Correspondence
import DurableScript.Proofs.TaggedText
import DurableScript.Snapshot.Restore

/-!
Values that are read back from tagged text. Main statements: `Value.reads_restore`, reading succeeds
and gives the value with a new reference in place of each object, and `Value.RestoredAs.tagForm_eq`,
what was read is written as the same text.
-/

namespace DurableScript

namespace Restoring

variable {α β : Type} {store after : Objects} {a : α}

def Gives (x : Restoring α) (store : Objects) (a : α) (after : Objects) : Prop :=
  (ExceptT.run x).run store = (Except.ok a, after)

theorem Gives.unique {x : Restoring α} {after' : Objects} {b : α} (h : x.Gives store a after)
    (h' : x.Gives store b after') : a = b ∧ after = after' := by
  cases h.symm.trans h'
  exact ⟨rfl, rfl⟩

theorem gives_pure_iff {b : α} : Gives (pure a) store b after ↔ a = b ∧ store = after := by
  show (Except.ok a, store) = (Except.ok b, after) ↔ _
  simp

theorem gives_ofExcept_iff {result : Except FormatError α} :
    Gives (ofExcept result) store a after ↔ result = .ok a ∧ store = after := by
  show (result, store) = (Except.ok a, after) ↔ _
  simp

theorem not_gives_throw {e : FormatError} : ¬ Gives (throw e) store a after := by
  show ¬ (Except.error e, store) = (Except.ok a, after)
  simp

theorem gives_bind_iff {x : Restoring α} {f : α → Restoring β} {b : β} :
    Gives (x >>= f) store b after ↔
      ∃ a between, Gives x store a between ∧ Gives (f a) between b after := by
  unfold Gives
  rw [ExceptT.run_bind, StateT.run_bind]
  generalize (ExceptT.run x).run store = result
  obtain ⟨_ | a, between⟩ := result
  · constructor
    · intro h
      exact absurd (congrArg Prod.fst h) nofun
    · rintro ⟨_, _, h, -⟩
      exact absurd (congrArg Prod.fst h) nofun
  · constructor
    · intro h
      exact ⟨a, between, rfl, h⟩
    · rintro ⟨_, _, ⟨⟩, h⟩
      exact h

end Restoring

structure Objects.Grown (before after : Objects) : Prop where
  size_le : before.cells.size ≤ after.cells.size
  found?_eq : after.found? = before.found?

namespace Objects

theorem Grown.refl (store : Objects) : Grown store store := ⟨Nat.le_refl _, rfl⟩

theorem Grown.trans {store between after : Objects} (h : Grown store between)
    (h' : Grown between after) : Grown store after :=
  ⟨h.size_le.trans h'.size_le, h'.found?_eq.trans h.found?_eq⟩

theorem found?_of_size_le {store : Objects} {cell : Nat} (h : store.cells.size ≤ cell) :
    store.found? cell = none := by
  rw [found?, Array.getElem?_eq_none h, Option.bind_none]

def OpenFrom (store : Objects) (first : Nat) : Prop :=
  ∀ cell, first ≤ cell → store.found? cell = none

theorem openFrom_size (store : Objects) : store.OpenFrom store.cells.size :=
  fun _ => found?_of_size_le

theorem OpenFrom.grown {store after : Objects} {first : Nat} (h : store.OpenFrom first)
    (hgrown : Grown store after) : after.OpenFrom first := by
  intro cell hcell
  rw [hgrown.found?_eq]
  exact h cell hcell

theorem persisted_lazy {store : Objects} {cell : Nat} (h : store.found? cell = none) (id : String) :
    store.persisted (.lazy cell id) = some (.reference id) := by
  rw [persisted, h]

theorem tagForm_of_reference {objects : Objects} {ref : ObjectRef Value} {id : String}
    (h : objects.persisted ref = some (.reference id)) :
    objects.tagForm ref = .ok (.text ("o:" ++ id)) := by
  rw [tagForm, h]

theorem grown_defer (store : Objects) (source : Nat) (id : String) :
    Grown store (store.defer source id).2 where
  size_le := by simp [defer]
  found?_eq := by
    funext cell
    simp only [found?, defer, Array.getElem?_push]
    split
    · next h => rw [h, Array.getElem?_eq_none (Nat.le_refl _)]; rfl
    · rfl

end Objects

namespace Restoring

variable {α β : Type} {first : Nat}

def Yields (first : Nat) (x : Restoring α) (P : α → Prop) : Prop :=
  ∀ store : Objects, first ≤ store.cells.size →
    ∃ a after, x.Gives store a after ∧ store.Grown after ∧ P a

/-- From every store that is ready, the reading succeeds with a result that meets `P`, looks nothing
up that is deferred, and leaves a store that is ready. -/
def Reads (ready : Objects → Prop) (x : Restoring α) (P : α → Prop) : Prop :=
  ∀ store : Objects, ready store →
    ∃ a after, x.Gives store a after ∧ store.Grown after ∧ ready after ∧ P a

variable {ready : Objects → Prop}

theorem Reads.mono {x : Restoring α} {P Q : α → Prop} (h : x.Reads ready P)
    (hPQ : ∀ a, P a → Q a) : x.Reads ready Q := by
  intro store hready
  obtain ⟨a, after, hgives, hgrown, hready', ha⟩ := h store hready
  exact ⟨a, after, hgives, hgrown, hready', hPQ a ha⟩

theorem Reads.yields {x : Restoring α} {P : α → Prop}
    (h : x.Reads (fun store => first ≤ store.cells.size) P) : x.Yields first P := by
  intro store hfirst
  obtain ⟨a, after, hgives, hgrown, -, ha⟩ := h store hfirst
  exact ⟨a, after, hgives, hgrown, ha⟩

theorem reads_pure {a : α} {P : α → Prop} (h : P a) : Reads ready (pure a) P :=
  fun store hready => ⟨a, store, rfl, .refl store, hready, h⟩

theorem reads_get : Reads ready (get : Restoring Objects) fun _ => True :=
  fun store hready => ⟨store, store, rfl, .refl store, hready, trivial⟩

theorem Reads.bind {x : Restoring α} {f : α → Restoring β} {P : α → Prop} {Q : β → Prop}
    (hx : x.Reads ready P) (hf : ∀ a, P a → (f a).Reads ready Q) : (x >>= f).Reads ready Q := by
  intro store hready
  obtain ⟨a, between, hgives, hgrown, hready', ha⟩ := hx store hready
  obtain ⟨b, after, hgives', hgrown', hready'', hb⟩ := hf a ha between hready'
  exact ⟨b, after, gives_bind_iff.2 ⟨a, between, hgives, hgives'⟩, hgrown.trans hgrown', hready'', hb⟩

theorem reads_ofExcept_bind {result : Except FormatError α} {a : α} {f : α → Restoring β}
    {P : β → Prop} (hresult : result = .ok a) (h : (f a).Reads ready P) :
    (ofExcept result >>= f).Reads ready P := by
  rw [hresult]
  exact h

theorem reads_reference {sources : Sources} (h : sources.deferred = true) (source : Nat)
    (id : String) : Reads (fun store => first ≤ store.cells.size) (reference sources source id)
      fun value => ∃ cell, first ≤ cell ∧ value = .object (.lazy cell id) := by
  intro store hfirst
  have hgrown := store.grown_defer source id
  refine ⟨.object (.lazy store.cells.size id), (store.defer source id).2, ?_, hgrown,
    hfirst.trans hgrown.size_le, _, hfirst, rfl⟩
  unfold reference
  rw [h]
  rfl

def Finds (ready : Objects → Prop) (sources : Sources) (source : Nat) (objects : Objects)
    (R : ObjectRef Value → ObjectRef Value → Prop) (ref : ObjectRef Value) : Prop :=
  ∀ id, objects.persisted ref = some (.reference id) →
    (reference sources source id).Reads ready fun value => ∃ ref', value = .object ref' ∧ R ref ref'

def Restores (ready : Objects → Prop) (sources : Sources) (source : Nat)
    (leaf : ObjectRef Value → Tagged) (R : ObjectRef Value → ObjectRef Value → Prop)
    (ref : ObjectRef Value) : Prop :=
  ((leaf ref).restore sources source).Reads ready fun value => ∃ ref', value = .object ref' ∧ R ref ref'

theorem Finds.restores {sources : Sources} {source : Nat} {objects : Objects}
    {R : ObjectRef Value → ObjectRef Value → Prop} {ref : ObjectRef Value} {id : String}
    (h : Finds ready sources source objects R ref) (hid : objects.persisted ref = some (.reference id)) :
    Restores ready sources source objects.tagged R ref := by
  rw [Restores, Objects.tagged, Value.tagged, hid]
  exact h id hid

end Restoring

namespace Value

mutual

def ObjectFree : Value → Prop
  | list items => ObjectFreeItems items
  | record fields => ObjectFreeFields fields
  | object _ => False
  | _ => True

def ObjectFreeItems : List Value → Prop
  | [] => True
  | item :: rest => ObjectFree item ∧ ObjectFreeItems rest

def ObjectFreeFields : List (String × Value) → Prop
  | [] => True
  | (_, value) :: rest => ObjectFree value ∧ ObjectFreeFields rest

end

mutual

/-- The second value is the first, with a lazy reference of the same id in place of each object. The
cells of these references are numbered from `first` on. -/
def RestoredAs (objects : Objects) (first : Nat) : Value → Value → Prop
  | list items, restored => ∃ items', restored = list items' ∧ RestoredItems objects first items items'
  | record fields, restored =>
    ∃ fields', restored = record fields' ∧ RestoredFields objects first fields fields'
  | object ref, restored => ∃ id, objects.persisted ref = some (.reference id) ∧
    ∃ cell, first ≤ cell ∧ restored = object (.lazy cell id)
  | value, restored => restored = value

def RestoredItems (objects : Objects) (first : Nat) : List Value → List Value → Prop
  | [], restored => restored = []
  | item :: rest, restored => ∃ item' rest', restored = item' :: rest' ∧
    RestoredAs objects first item item' ∧ RestoredItems objects first rest rest'

def RestoredFields (objects : Objects) (first : Nat) :
    List (String × Value) → List (String × Value) → Prop
  | [], restored => restored = []
  | (name, value) :: rest, restored => ∃ value' rest', restored = (name, value') :: rest' ∧
    RestoredAs objects first value value' ∧ RestoredFields objects first rest rest'

end

def Deferred (objects : Objects) (first : Nat) (ref ref' : ObjectRef Value) : Prop :=
  ∃ id, objects.persisted ref = some (.reference id) ∧ ∃ cell, first ≤ cell ∧ ref' = .lazy cell id

section

variable {objects : Objects} {first : Nat}

mutual

theorem restoredAs_iff : ∀ {value restored : Value},
    value.RestoredAs objects first restored ↔ value.Matches (Deferred objects first) restored
  | null, _ | bool _, _ | int _, _ | float _, _ | str _, _ => Iff.rfl
  | list _, _ => by simp only [RestoredAs, Matches, restoredItems_iff_matches]
  | record _, _ => by simp only [RestoredAs, Matches, restoredFields_iff_matches]
  | object _, _ => by
    simp only [RestoredAs, Matches, Deferred]
    grind

theorem restoredItems_iff_matches : ∀ {items restored : List Value},
    RestoredItems objects first items restored ↔
      MatchesItems (Deferred objects first) items restored
  | [], _ => Iff.rfl
  | _ :: _, _ => by
    simp only [RestoredItems, MatchesItems, restoredAs_iff, restoredItems_iff_matches]

theorem restoredFields_iff_matches : ∀ {fields restored : List (String × Value)},
    RestoredFields objects first fields restored ↔
      MatchesFields (Deferred objects first) fields restored
  | [], _ => Iff.rfl
  | (_, _) :: _, _ => by
    simp only [RestoredFields, MatchesFields, restoredAs_iff, restoredFields_iff_matches]

end

mutual

theorem ObjectFree.refs_eq_nil : ∀ {value : Value}, value.ObjectFree → value.refs = []
  | null, _ | bool _, _ | int _, _ | float _, _ | str _, _ => rfl
  | list _, h => ObjectFreeItems.refs_eq_nil h
  | record _, h => ObjectFreeFields.refs_eq_nil h

theorem ObjectFreeItems.refs_eq_nil : ∀ {items : List Value}, ObjectFreeItems items →
    refsItems items = []
  | [], _ => rfl
  | _ :: _, ⟨h, hrest⟩ => by
    rw [refsItems, ObjectFree.refs_eq_nil h, ObjectFreeItems.refs_eq_nil hrest, List.nil_append]

theorem ObjectFreeFields.refs_eq_nil : ∀ {fields : List (String × Value)}, ObjectFreeFields fields →
    refsFields fields = []
  | [], _ => rfl
  | (_, _) :: _, ⟨h, hrest⟩ => by
    rw [refsFields, ObjectFree.refs_eq_nil h, ObjectFreeFields.refs_eq_nil hrest, List.nil_append]

end

mutual

theorem Matches.eq_of_objectFree {R : ObjectRef Value → ObjectRef Value → Prop} :
    ∀ {value other : Value}, value.Matches R other → value.ObjectFree → other = value
  | null, _, h, _ | bool _, _, h, _ | int _, _, h, _ | float _, _, h, _ | str _, _, h, _ => h
  | list _, _, ⟨_, hlist, hitems⟩, hfree =>
    hlist.trans (congrArg list (MatchesItems.eq_of_objectFree hitems hfree))
  | record _, _, ⟨_, hrecord, hfields⟩, hfree =>
    hrecord.trans (congrArg record (MatchesFields.eq_of_objectFree hfields hfree))

theorem MatchesItems.eq_of_objectFree {R : ObjectRef Value → ObjectRef Value → Prop} :
    ∀ {items others : List Value}, MatchesItems R items others → ObjectFreeItems items →
      others = items
  | [], _, h, _ => h
  | item :: rest, _, ⟨item', rest', hcons, hitem, hrest⟩, hfree => by
    rw [hcons, Matches.eq_of_objectFree hitem hfree.1, MatchesItems.eq_of_objectFree hrest hfree.2]

theorem MatchesFields.eq_of_objectFree {R : ObjectRef Value → ObjectRef Value → Prop} :
    ∀ {fields others : List (String × Value)}, MatchesFields R fields others →
      ObjectFreeFields fields → others = fields
  | [], _, h, _ => h
  | (name, value) :: rest, _, ⟨value', rest', hcons, hvalue, hrest⟩, hfree => by
    rw [hcons, Matches.eq_of_objectFree hvalue hfree.1,
      MatchesFields.eq_of_objectFree hrest hfree.2]

end

end

section

variable {leaf : ObjectRef Value → Tagged} {ready : Objects → Prop} {sources : Sources} {source : Nat}
  {R : ObjectRef Value → ObjectRef Value → Prop}

open Restoring Tagged

mutual

theorem reads_restore : ∀ value : Value, value.WellNamed → value.Shallow →
    (∀ ref ∈ value.refs, Restores ready sources source leaf R ref) →
    ((value.spelled leaf).restore sources source).Reads ready (value.Matches R)
  | null, _, _, _ | bool _, _, _, _ | int _, _, _, _ | float _, _, _, _ | str _, _, _, _ =>
    reads_pure rfl
  | list items, hnamed, hshallow, h => by
    rw [spelled, restore]
    refine (reads_restoreItems items hnamed hshallow h).bind fun items' hitems => ?_
    exact reads_pure ⟨items', rfl, hitems⟩
  | record fields, hnamed, hshallow, h => by
    rw [spelled, restore]
    refine (reads_restoreFields fields [] hnamed.1 hnamed.2 hshallow h).bind ?_
    rintro fields' ⟨_, rfl, hfields⟩
    exact reads_pure ⟨_, rfl, hfields⟩
  | object ref, _, _, h => h ref (List.mem_singleton_self ref)

theorem reads_restoreItems : ∀ items : List Value, WellNamedItems items → ShallowItems items →
    (∀ ref ∈ refsItems items, Restores ready sources source leaf R ref) →
    (restoreItems sources source (spelledItems leaf items)).Reads ready (MatchesItems R items)
  | [], _, _, _ => reads_pure rfl
  | item :: rest, hnamed, hshallow, h => by
    rw [refsItems, List.forall_mem_append] at h
    rw [spelledItems, restoreItems]
    refine (reads_restore item hnamed.1 hshallow.1 h.1).bind fun item' hitem => ?_
    refine (reads_restoreItems rest hnamed.2 hshallow.2 h.2).bind fun rest' hrest => ?_
    exact reads_pure ⟨item', rest', rfl, hitem, hrest⟩

theorem reads_restoreFields : ∀ (fields : List (String × Value)) (done : Table Value),
    Table.Distinct (done ++ fields) → WellNamedFields fields → ShallowFields fields →
    (∀ ref ∈ refsFields fields, Restores ready sources source leaf R ref) →
    (restoreFields sources source done (spelledFields leaf fields)).Reads ready fun table =>
      ∃ fields', table = done ++ fields' ∧ MatchesFields R fields fields'
  | [], done, _, _, _, _ => reads_pure ⟨[], (List.append_nil done).symm, rfl⟩
  | (name, value) :: rest, done, hdistinct, hnamed, hshallow, h => by
    rw [refsFields, List.forall_mem_append] at h
    rw [spelledFields, restoreFields, if_pos hshallow.1.2]
    refine (reads_restore value hnamed.1 hshallow.1.1 h.1).bind fun value' hvalue => ?_
    rw [Table.insert_of_notMem (Table.notMem_keys_of_distinct hdistinct)]
    have hdistinct' : Table.Distinct (done ++ [(name, value')] ++ rest) := by
      simpa [Table.Distinct, Table.keys] using hdistinct
    refine (reads_restoreFields rest _ hdistinct' hnamed.2 hshallow.2 h.2).mono ?_
    rintro _ ⟨rest', rfl, hrest⟩
    exact ⟨(name, value') :: rest', (List.append_cons ..).symm, value', rest', rfl, hvalue, hrest⟩

end

end

variable {objects : Objects} {first : Nat}

mutual

theorem RestoredAs.tagForm_eq {store : Objects} (hstore : store.OpenFrom first) :
    ∀ {value restored : Value}, value.RestoredAs objects first restored →
      restored.tagForm store = value.tagForm objects
  | null, _, rfl | bool true, _, rfl | bool false, _, rfl => rfl
  | int _, _, rfl | float _, _, rfl | str _, _, rfl => rfl
  | list items, _, ⟨items', rfl, hitems⟩ => by
    rw [tagForm, tagForm, RestoredItems.itemForms_eq hstore hitems]
  | record fields, _, ⟨fields', rfl, hfields⟩ => by
    rw [tagForm, tagForm, RestoredFields.fieldForms_eq hstore hfields]
  | object ref, _, ⟨id, hid, cell, hcell, rfl⟩ => by
    have hlazy := Objects.persisted_lazy (hstore cell hcell) id
    rw [tagForm, tagForm, Objects.tagForm_of_reference hid, Objects.tagForm_of_reference hlazy]

theorem RestoredItems.itemForms_eq {store : Objects} (hstore : store.OpenFrom first) :
    ∀ {items restored : List Value}, RestoredItems objects first items restored →
      itemForms store restored = itemForms objects items
  | [], _, rfl => rfl
  | item :: rest, _, ⟨item', rest', rfl, hitem, hrest⟩ => by
    rw [itemForms, itemForms, RestoredAs.tagForm_eq hstore hitem,
      RestoredItems.itemForms_eq hstore hrest]

theorem RestoredFields.fieldForms_eq {store : Objects} (hstore : store.OpenFrom first) :
    ∀ {fields restored : List (String × Value)}, RestoredFields objects first fields restored →
      fieldForms store restored = fieldForms objects fields
  | [], _, rfl => rfl
  | (name, value) :: rest, _, ⟨value', rest', rfl, hvalue, hrest⟩ => by
    rw [fieldForms, fieldForms, RestoredAs.tagForm_eq hstore hvalue,
      RestoredFields.fieldForms_eq hstore hrest]

end

theorem RestoredAs.eq_of_objectFree {value restored : Value}
    (h : value.RestoredAs objects first restored) (hfree : value.ObjectFree) : restored = value :=
  (restoredAs_iff.1 h).eq_of_objectFree hfree

end Value

def Resolver.answer? (resolvers : List Resolver) (id : String) : Option (HostObject Value) :=
  (resolvers.find? fun resolver => resolver.supports id).map fun resolver => resolver.resolve id

def Resolver.serial? (resolvers : List Resolver) (id : String) : Option Nat :=
  (resolvers.find? fun resolver => resolver.supports id).bind fun resolver => resolver.held? id

namespace Objects

variable {store after : Objects} {resolvers : List Resolver} {resolver : Resolver} {source : Nat}
  {id : String} {object : HostObject Value}

def Asks (resolvers : List Resolver) (source : Nat) (store : Objects) : Prop :=
  ∃ lookups, store.sources[source]? = some ⟨resolvers, lookups⟩

theorem asks_addSource (store : Objects) (resolvers : List Resolver) :
    (store.addSource resolvers).2.Asks resolvers (store.addSource resolvers).1 :=
  ⟨0, by simp [addSource]⟩

theorem exists_ask (h : store.Asks resolvers source)
    (hfind : (resolvers.find? fun resolver => resolver.supports id) = some resolver) :
    ∃ sources, store.ask source id = some (resolver, { store with sources := sources }) ∧
      ∀ {known : List Resolver} {other : Nat}, store.Asks known other →
        Asks known other { store with sources := sources } := by
  obtain ⟨lookups, hsource⟩ := h
  have hlt : source < store.sources.size := (Array.getElem?_eq_some_iff.1 hsource).1
  refine ⟨store.sources.setIfInBounds source ⟨resolvers, lookups + 1⟩, ?_, ?_⟩
  · simp only [ask, hsource, hfind]
  · rintro known other ⟨lookups', hother⟩
    by_cases heq : source = other
    · subst heq
      cases hsource.symm.trans hother
      exact ⟨lookups + 1, by simp [hlt]⟩
    · exact ⟨lookups', by simpa [Array.getElem?_setIfInBounds_ne heq] using hother⟩

theorem exists_lookUp (h : store.Asks resolvers source)
    (hanswer : Resolver.answer? resolvers id = some object) :
    ∃ sources, store.lookUp source id = some (object, { store with sources := sources }) ∧
      ∀ {known : List Resolver} {other : Nat}, store.Asks known other →
        Asks known other { store with sources := sources } := by
  obtain ⟨resolver, hfind, rfl⟩ := Option.map_eq_some_iff.1 hanswer
  obtain ⟨sources, hask, hkeeps⟩ := exists_ask h hfind
  exact ⟨sources, by rw [lookUp, hask, Option.map_some], hkeeps⟩

theorem find?_of_ask (h : store.Asks resolvers source)
    (hask : store.ask source id = some (resolver, after)) :
    (resolvers.find? fun resolver => resolver.supports id) = some resolver := by
  obtain ⟨lookups, hsource⟩ := h
  simp only [ask, hsource] at hask
  split at hask
  · cases hask
  · next hfind =>
    cases hask
    exact hfind

end Objects

namespace Restoring

variable {sources : Sources} {source : Nat} {store after : Objects} {value : Value}

theorem gives_adopt_iff {object : HostObject Value} : (adopt object).Gives store value after ↔
    value = .object (.ready store.issued object) ∧
      after = { store with issued := store.issued + 1 } := by
  show (Except.ok (Value.object (.ready store.issued object)),
    { store with issued := store.issued + 1 }) = (Except.ok value, after) ↔ _
  simp [eq_comm]

theorem gives_handOut {resolver : Resolver} {id : String}
    (h : (handOut resolver id).Gives store value after) :
    ∃ serial, value = .object (.ready serial (resolver.resolve id)) ∧
      (resolver.held? id = some serial ∧ after = store ∨
        resolver.held? id = none ∧ serial = store.issued ∧
          after = { store with issued := store.issued + 1 }) := by
  unfold handOut at h
  split at h
  · next serial hheld =>
    obtain ⟨rfl, rfl⟩ := gives_pure_iff.1 h
    exact ⟨serial, rfl, .inl ⟨hheld, rfl⟩⟩
  · next hheld =>
    obtain ⟨rfl, rfl⟩ := gives_adopt_iff.1 h
    exact ⟨store.issued, rfl, .inr ⟨hheld, rfl, rfl⟩⟩

theorem gives_reference {id : String} (heager : sources.deferred = false)
    (h : (reference sources source id).Gives store value after) :
    ∃ resolver between, store.ask source id = some (resolver, between) ∧
      (handOut resolver id).Gives between value after := by
  unfold reference at h
  rw [heager] at h
  obtain ⟨objects, between, hget, h⟩ := gives_bind_iff.1 h
  cases hget
  simp only [Bool.false_eq_true, if_false] at h
  split at h
  · exact absurd h not_gives_throw
  · next resolver found hfound =>
    obtain ⟨_, between, hset, h⟩ := gives_bind_iff.1 h
    cases hset
    exact ⟨resolver, found, hfound, h⟩

theorem found_of_gives_reference {id : String} (heager : sources.deferred = false)
    (hasks : store.Asks sources.resolvers source)
    (h : (reference sources source id).Gives store value after) :
    ∃ serial object, Resolver.answer? sources.resolvers id = some object ∧
      value = .object (.ready serial object) ∧ after.Asks sources.resolvers source ∧
      after.cells = store.cells ∧
      (Resolver.serial? sources.resolvers id = some serial ∧ after.issued = store.issued ∨
        Resolver.serial? sources.resolvers id = none ∧ serial = store.issued ∧
          after.issued = store.issued + 1) := by
  obtain ⟨resolver, between, hask, hgives⟩ := gives_reference heager h
  have hfind := Objects.find?_of_ask hasks hask
  obtain ⟨asked, hask', hkeeps⟩ := Objects.exists_ask hasks hfind
  cases hask.symm.trans hask'
  have hserial? : Resolver.serial? sources.resolvers id = resolver.held? id := by
    rw [Resolver.serial?, hfind, Option.bind_some]
  obtain ⟨serial, rfl, hheld⟩ := gives_handOut hgives
  refine ⟨serial, resolver.resolve id, by rw [Resolver.answer?, hfind, Option.map_some], rfl, ?_⟩
  obtain ⟨hheld, rfl⟩ | ⟨hheld, rfl, rfl⟩ := hheld
  · exact ⟨hkeeps hasks, rfl, .inl ⟨hserial?.trans hheld, rfl⟩⟩
  · exact ⟨hkeeps hasks, rfl, .inr ⟨hserial?.trans hheld, rfl, rfl⟩⟩

theorem exists_gives_reference {id : String} {object : HostObject Value}
    (heager : sources.deferred = false) (hasks : store.Asks sources.resolvers source)
    (hanswer : Resolver.answer? sources.resolvers id = some object) :
    ∃ value after, (reference sources source id).Gives store value after := by
  obtain ⟨resolver, hfind, -⟩ := Option.map_eq_some_iff.1 hanswer
  obtain ⟨asked, hask, -⟩ := Objects.exists_ask hasks hfind
  have hhandOut (between : Objects) :
      ∃ value after, (handOut resolver id).Gives between value after := by
    unfold handOut
    split <;> exact ⟨_, _, rfl⟩
  obtain ⟨value, after, hgives⟩ := hhandOut { store with sources := asked }
  refine ⟨value, after, gives_bind_iff.2 ⟨store, store, rfl, ?_⟩⟩
  rw [heager, hask]
  exact gives_bind_iff.2 ⟨⟨⟩, _, rfl, hgives⟩

theorem gives_blob {typeName payload : String}
    (h : (blob sources typeName payload).Gives store value after) :
    ∃ decode object, Table.find? typeName sources.blobs = some decode ∧
      decode payload = .ok object ∧ (adopt object).Gives store value after := by
  unfold blob at h
  split at h
  · exact absurd h not_gives_throw
  · next decode hdecode =>
    split at h
    · exact absurd h not_gives_throw
    · next object hobject => exact ⟨decode, object, hdecode, hobject, h⟩

end Restoring

end DurableScript
