import DurableScript.Proofs.Correspondence
import DurableScript.Proofs.Faults

namespace DurableScript

namespace Objects

variable {objects after later : Objects} {ref : ObjectRef Value} {object : HostObject Value}

def Precedes (objects later : Objects) : Prop :=
  ∀ cell object, objects.found? cell = some object → later.found? cell = some object

theorem Precedes.refl (objects : Objects) : objects.Precedes objects := fun _ _ h => h

theorem Precedes.trans (h : objects.Precedes after) (h' : after.Precedes later) :
    objects.Precedes later := fun cell object hfound => h' cell object (h cell object hfound)

theorem lookUp_cases {source : Nat} {id : String}
    (h : objects.lookUp source id = some (object, after)) : ∃ known resolver,
      objects.sources[source]? = some known ∧
      known.resolvers.find? (fun resolver => resolver.supports id) = some resolver ∧
      object = resolver.resolve id ∧ after = { objects with
        sources := objects.sources.setIfInBounds source ⟨known.resolvers, known.lookups + 1⟩ } := by
  obtain ⟨⟨resolver, looked⟩, hask, ⟨⟩⟩ := Option.map_eq_some_iff.1 h
  unfold ask at hask
  split at hask
  · cases hask
  · next known hknown =>
    split at hask
    · cases hask
    · next hfind =>
      cases hask
      exact ⟨known, resolver, hknown, hfind, rfl, rfl⟩

section

variable (h : objects.resolve ref = .ok (object, after))
include h

theorem resolve_cases : objects.content? ref = some object ∧ after = objects ∨
      ∃ cell id source looked, ref = .lazy cell id ∧ objects.cells[cell]? = some ⟨source, none⟩ ∧
        objects.lookUp source id = some (object, looked) ∧ after = fill looked cell object := by
  cases ref with
  | ready serial object =>
    cases h
    exact .inl ⟨rfl, rfl⟩
  | lazy cell id =>
    rw [resolve] at h
    split at h
    · next hfound =>
      cases h
      exact .inl ⟨hfound, rfl⟩
    · next hfound =>
      split at h
      · next object looked hlookUp =>
        cases h
        obtain ⟨⟨source, content⟩, hcell, hlookUp⟩ := Option.bind_eq_some_iff.1 hlookUp
        obtain rfl : content = none := by simpa [found?, hcell] using hfound
        exact .inr ⟨cell, id, source, looked, rfl, hcell, hlookUp, rfl⟩
      · cases h

theorem precedes_resolve : objects.Precedes after := by
  obtain ⟨-, rfl⟩ | ⟨cell, id, source, looked, rfl, hcell, hlookUp, rfl⟩ := resolve_cases h
  · exact .refl _
  · obtain ⟨known, resolver, -, -, -, rfl⟩ := lookUp_cases hlookUp
    intro other kept hkept
    have hne : cell ≠ other := by
      rintro rfl
      simp [found?, hcell] at hkept
    simpa [found?, fill, Array.getElem?_modify, hne] using hkept

theorem content?_resolve : after.content? ref = some object := by
  obtain ⟨hcontent, rfl⟩ | ⟨cell, id, source, looked, rfl, hcell, hlookUp, rfl⟩ := resolve_cases h
  · exact hcontent
  · obtain ⟨known, resolver, -, -, -, rfl⟩ := lookUp_cases hlookUp
    simp [content?, found?, fill, Array.getElem?_modify, hcell]

end

theorem Precedes.content? (h : objects.Precedes later) (hcontent : objects.content? ref = some object) :
    later.content? ref = some object := by
  cases ref with
  | ready => exact hcontent
  | lazy cell id => exact h cell object hcontent

theorem resolve_of_content? (h : objects.content? ref = some object) :
    objects.resolve ref = .ok (object, objects) := by
  cases ref with
  | ready =>
    cases h
    rfl
  | lazy cell id =>
    have hfound : objects.found? cell = some object := h
    rw [resolve, hfound]

theorem Precedes.resolve_again (h : after.Precedes later)
    (hresolve : objects.resolve ref = .ok (object, after)) :
    later.resolve ref = .ok (object, later) :=
  resolve_of_content? (h.content? (content?_resolve hresolve))

theorem resolve_resolve (h : objects.resolve ref = .ok (object, after)) :
    after.resolve ref = .ok (object, after) := (Precedes.refl after).resolve_again h

section Resolved

variable (h : objects.Precedes later) (hresolved : objects.isResolved ref = true)

include h hresolved

theorem Precedes.label_eq : later.label ref = objects.label ref := by
  obtain ⟨object, hcontent⟩ := Option.isSome_iff_exists.1 hresolved
  cases ref with
  | ready => rfl
  | lazy cell id =>
    have hfound : objects.found? cell = some object := hcontent
    rw [label, label, h cell object hfound, hfound]

theorem Precedes.persisted_eq : later.persisted ref = objects.persisted ref := by
  obtain ⟨object, hcontent⟩ := Option.isSome_iff_exists.1 hresolved
  cases ref with
  | ready => rfl
  | lazy cell id =>
    have hfound : objects.found? cell = some object := hcontent
    rw [persisted, persisted, h cell object hfound, hfound]

end Resolved

theorem Precedes.sameRef_eq {left right : ObjectRef Value} (h : objects.Precedes later)
    (hleft : objects.isResolved left = true) (hright : objects.isResolved right = true) :
    later.sameRef left right = objects.sameRef left right := by
  unfold sameRef
  rw [h.persisted_eq hleft, h.persisted_eq hright]

end Objects

namespace Value

/-- What the operator is applied to does not depend on lookups to come: the objects that are compared
or turned into text have been looked up. -/
def Steady (objects : Objects) (left right : Value) : Operator → Prop
  | .eq | .ne => ∀ pair ∈ left.meetings right,
    objects.isResolved pair.1 = true ∧ objects.isResolved pair.2 = true
  | .concat => ∀ ref ∈ left.refs ++ right.refs, objects.isResolved ref = true
  | .add => (left.isStr || right.isStr) = true →
    ∀ ref ∈ left.refs ++ right.refs, objects.isResolved ref = true
  | _ => True

variable {objects later : Objects} {left right value : Value}

theorem text_eq_of_precedes (h : objects.Precedes later)
    (hresolved : ∀ ref ∈ value.refs, objects.isResolved ref = true) :
    value.text later = value.text objects := by
  have hself : value.Matches (fun r q => q = r ∧ objects.isResolved r = true) value :=
    matches_self value fun r hr => ⟨rfl, hresolved r hr⟩
  refine hself.text_eq ?_
  rintro r _ ⟨rfl, hr⟩
  exact h.label_eq hr

theorem join_eq_of_precedes (h : objects.Precedes later)
    (hresolved : ∀ ref ∈ left.refs ++ right.refs, objects.isResolved ref = true) :
    join later left right = join objects left right := by
  rw [List.forall_mem_append] at hresolved
  rw [join, join, text_eq_of_precedes h hresolved.1, text_eq_of_precedes h hresolved.2]

theorem looseEq_eq_of_precedes (h : objects.Precedes later)
    (hresolved : ∀ pair ∈ left.meetings right,
      objects.isResolved pair.1 = true ∧ objects.isResolved pair.2 = true) :
    looseEq later left right = looseEq objects left right := by
  rw [looseEq_eq, looseEq_eq]
  congr 1
  rw [Bool.eq_iff_iff, List.all_eq_true, List.all_eq_true]
  exact forall₂_congr fun pair hpair => by
    rw [h.sameRef_eq (hresolved pair hpair).1 (hresolved pair hpair).2]

theorem apply_eq_of_precedes (h : objects.Precedes later) {op : Operator}
    (hsteady : Steady objects left right op) :
    apply later op left right = apply objects op left right := by
  cases op with
  | add =>
    rw [apply, apply]
    split
    · next hstr => rw [join_eq_of_precedes h (hsteady hstr)]
    · rfl
  | concat => rw [apply, apply, join_eq_of_precedes h hsteady]
  | eq | ne => rw [apply, apply, looseEq_eq_of_precedes h hsteady]
  | _ => rfl

end Value

variable {H : Type}

structure World.Precedes (world later : World H) : Prop where
  host : later.host = world.host
  objects : world.objects.Precedes later.objects

theorem World.Precedes.refl (world : World H) : world.Precedes world := ⟨rfl, .refl _⟩

theorem World.Precedes.trans {world after later : World H} (h : world.Precedes after)
    (h' : after.Precedes later) : world.Precedes later :=
  ⟨h'.host.trans h.host, h.objects.trans h'.objects⟩

namespace Machine

variable {machine next : Machine H} {name : String} {value : Value}

theorem resolve_eq_ok {ref : ObjectRef Value} {object : HostObject Value}
    (h : machine.resolve ref = .ok (object, next)) :
    ∃ objects, machine.world.objects.resolve ref = .ok (object, objects) ∧
      next = { machine with world := { machine.world with objects := objects } } := by
  unfold resolve at h
  split at h
  · next objects hresolve =>
    cases h
    exact ⟨objects, hresolve, rfl⟩
  · cases h

theorem readVariable_eq_ok (h : machine.readVariable name = .ok (value, next)) :
    machine.execution.lookup? name = some value ∧
      ((∃ ref object, value = .object ref ∧ machine.resolve ref = .ok (object, next)) ∨
        (∀ ref, value ≠ .object ref) ∧ next = machine) := by
  unfold readVariable at h
  split at h
  · cases h
  · next ref hlookup =>
    cases hresolve : machine.resolve ref with
    | error fault =>
      rw [hresolve] at h
      cases h
    | ok found =>
      rw [hresolve] at h
      cases h
      exact ⟨hlookup, .inl ⟨ref, found.1, rfl, hresolve⟩⟩
  · next found hobject hlookup =>
    cases h
    refine ⟨hlookup, .inr ⟨?_, rfl⟩⟩
    rintro ref rfl
    exact hobject ref rfl

theorem receiver_eq_ok {typeName : String} (h : machine.receiver name = .ok (value, typeName, next)) :
    ∃ read, machine.readVariable name = .ok (value, read) ∧
      ((∃ fields, value = .record fields ∧ typeName = "record" ∧ next = read) ∨
        ∃ ref object, value = .object ref ∧ read.resolve ref = .ok (object, next) ∧
          typeName = object.typeName) := by
  unfold receiver at h
  split at h
  · cases h
  · cases h
  · next fields read hread =>
    cases h
    exact ⟨_, hread, .inl ⟨fields, rfl, rfl, rfl⟩⟩
  · next ref read hread =>
    cases hresolve : read.resolve ref with
    | error fault =>
      rw [hresolve] at h
      cases h
    | ok found =>
      rw [hresolve] at h
      cases h
      exact ⟨read, hread, .inr ⟨ref, found.1, rfl, hresolve, rfl⟩⟩
  · cases h

theorem property_eq_ok {object : Value} (h : machine.property name object = (.ok value, next)) :
    (∃ fields, object = .record fields ∧ propertyIn fields name = .ok value ∧ next = machine) ∨
      ∃ ref found, object = .object ref ∧ machine.resolve ref = .ok (found, next) ∧
        propertyIn found.properties name = .ok value := by
  unfold property at h
  split at h
  · next fields =>
    obtain ⟨hvalue, hsame⟩ := Prod.mk.inj h
    exact .inl ⟨fields, rfl, hvalue, hsame.symm⟩
  · next ref =>
    split at h
    · next found looked hresolve =>
      obtain ⟨hvalue, rfl⟩ := Prod.mk.inj h
      exact .inr ⟨ref, found, rfl, hresolve, hvalue⟩
    · cases h
  · cases h

theorem precedes_resolve {ref : ObjectRef Value} {object : HostObject Value}
    (h : machine.resolve ref = .ok (object, next)) : machine.world.Precedes next.world := by
  obtain ⟨objects, hresolve, rfl⟩ := resolve_eq_ok h
  exact ⟨rfl, Objects.precedes_resolve hresolve⟩

theorem precedes_readVariable (h : machine.readVariable name = .ok (value, next)) :
    machine.world.Precedes next.world := by
  obtain ⟨-, ⟨ref, object, -, hresolve⟩ | ⟨-, rfl⟩⟩ := readVariable_eq_ok h
  · exact precedes_resolve hresolve
  · exact .refl _

theorem precedes_receiver {typeName : String}
    (h : machine.receiver name = .ok (value, typeName, next)) :
    machine.world.Precedes next.world := by
  obtain ⟨read, hread, ⟨fields, -, -, rfl⟩ | ⟨ref, object, -, hresolve, -⟩⟩ := receiver_eq_ok h
  · exact precedes_readVariable hread
  · exact (precedes_readVariable hread).trans (precedes_resolve hresolve)

theorem precedes_property {object : Value} (h : machine.property name object = (.ok value, next)) :
    machine.world.Precedes next.world := by
  obtain ⟨fields, -, -, rfl⟩ | ⟨ref, found, -, hresolve, -⟩ := property_eq_ok h
  · exact .refl _
  · exact precedes_resolve hresolve

end Machine

end DurableScript
