import DurableScript.Proofs.Comparison
import DurableScript.Proofs.LazyReading
import DurableScript.Proofs.SharedObjects

namespace DurableScript

namespace ObjectRef

variable {first second third : ObjectRef Value}

/-- Two objects, and a lazy reference between them. -/
def Bridged : ObjectRef Value → ObjectRef Value → ObjectRef Value → Prop
  | .ready serial _, .lazy _ _, .ready other _ => serial ≠ other
  | _, _, _ => False

theorem SameHandle.trans (h : first.SameHandle second) (h' : second.SameHandle third) :
    first.SameHandle third := by
  cases first <;> cases second <;> cases third <;> try contradiction
  all_goals exact Eq.trans h h'

end ObjectRef

namespace Objects

variable {objects after : Objects} {first second third : ObjectRef Value}

theorem Linked.trans (hcompatible : first.Compatible second) (hcompatible' : second.Compatible third)
    (h : objects.Linked first second) (h' : objects.Linked second third) :
    objects.Linked first third := by
  rcases h with h | ⟨id, hfirst, hsecond⟩ <;> rcases h' with h' | ⟨id', hsecond', hthird⟩
  · exact .inl (h.trans h')
  · exact .inr ⟨id', (persisted_eq_of_sameHandle hcompatible h).trans hsecond', hthird⟩
  · exact .inr ⟨id, hfirst, (persisted_eq_of_sameHandle hcompatible' h').symm.trans hsecond⟩
  · cases hsecond.symm.trans hsecond'
    exact .inr ⟨id, hfirst, hthird⟩

theorem sameRef_trans_iff (hcompatible : first.Compatible second)
    (hcompatible' : second.Compatible third) (h : objects.sameRef first second = true)
    (h' : objects.sameRef second third = true) :
    objects.sameRef first third = true ↔ ¬ first.Bridged second third := by
  have hlinked := (Linked.of_sameRef h).trans hcompatible hcompatible' (.of_sameRef h')
  cases first with
  | lazy => exact iff_of_true (sameRef_lazy_iff.2 hlinked) id
  | ready serial object =>
    cases third with
    | lazy =>
      rw [sameRef_comm]
      cases second <;> exact iff_of_true (sameRef_lazy_iff.2 hlinked.symm) id
    | ready other object' =>
      -- Two objects are compared by their serial numbers alone.
      cases second with
      | ready => exact iff_of_true (beq_iff_eq.2 ((eq_of_beq h).trans (eq_of_beq h'))) id
      | lazy => exact beq_iff_eq.trans not_not.symm

theorem persisted_resolve {cell : Nat} {id : String} {object : HostObject Value}
    (h : objects.resolve (.lazy cell id) = .ok (object, after))
    (hpersisted : object.persisted = some (.reference id)) {other : ObjectRef Value}
    (hcompatible : ObjectRef.Compatible (.lazy cell id) other) :
    after.persisted other = objects.persisted other := by
  obtain ⟨-, rfl⟩ | ⟨_, _, source, looked, ⟨⟩, hcell, hlookUp, rfl⟩ := resolve_cases h
  · rfl
  · obtain ⟨known, resolver, -, -, -, rfl⟩ := lookUp_cases hlookUp
    cases other with
    | ready => rfl
    | lazy cell' id' =>
      by_cases hsame : cell = cell'
      · subst hsame
        cases hcompatible rfl
        simp [persisted, found?, fill, Array.getElem?_modify, hcell, hpersisted]
      · simp [persisted, found?, fill, Array.getElem?_modify, hsame]

theorem sameRef_congr_store {store : Objects} (hfirst : store.persisted first = objects.persisted first)
    (hsecond : store.persisted second = objects.persisted second) :
    store.sameRef first second = objects.sameRef first second := by
  cases first <;> cases second <;> simp only [sameRef, hfirst, hsecond]

end Objects

/-- Equality of references is reflexive and symmetric, and it is transitive unless a lazy reference
stands between two objects of its id. A lookup that finds the object of the id changes no
comparison. -/
theorem equality_up_to_bridged_objects (objects : Objects) {first second third : ObjectRef Value}
    (hcompatible : first.Compatible second) (hcompatible' : second.Compatible third) :
    objects.sameRef first first = true ∧
    objects.sameRef second first = objects.sameRef first second ∧
    (objects.sameRef first second = true → objects.sameRef second third = true →
      (objects.sameRef first third = true ↔ ¬ first.Bridged second third)) ∧
    ∀ {cell id object after}, objects.resolve (.lazy cell id) = .ok (object, after) →
      object.persisted = some (.reference id) →
      ObjectRef.Compatible (.lazy cell id) first → ObjectRef.Compatible (.lazy cell id) second →
      after.sameRef first second = objects.sameRef first second :=
  ⟨Value.sameRef_self objects first, objects.sameRef_comm first second,
    Objects.sameRef_trans_iff hcompatible hcompatible', fun hresolve hpersisted hfirst hsecond =>
      Objects.sameRef_congr_store (Objects.persisted_resolve hresolve hpersisted hfirst)
        (Objects.persisted_resolve hresolve hpersisted hsecond)⟩

def ObjectRef.account (serial : Nat) : ObjectRef Value :=
  .ready serial (Resolver.accounts.resolve "account:1")

def ObjectRef.accountLater (cell : Nat) : ObjectRef Value := .lazy cell "account:1"

def Objects.banking : Objects := ⟨2, #[⟨[.accounts], 0⟩], #[⟨0, none⟩, ⟨0, none⟩]⟩

/-- Two references that wait for the account are equal, because both are equal to the account. -/
theorem equality_up_to_bridged_objects_banking :
    Objects.banking.sameRef (.accountLater 0) (.accountLater 1) = true ∧
      ∃ found after, Objects.banking.resolve (.accountLater 0) = .ok (found, after) ∧
        after.sameRef (.accountLater 0) (.account 0) = true := by
  obtain ⟨-, -, htrans, hlookup⟩ := equality_up_to_bridged_objects .banking
    (show (ObjectRef.accountLater 0).Compatible (.account 0) from trivial)
    (show (ObjectRef.account 0).Compatible (.accountLater 1) from trivial)
  have hfirst : Objects.banking.sameRef (.accountLater 0) (.account 0) = true := rfl
  have hresolve : Objects.banking.resolve (.accountLater 0) =
    .ok (Resolver.accounts.resolve "account:1", _) := rfl
  exact ⟨(htrans hfirst rfl).2 id, _, _, hresolve,
    (hlookup hresolve rfl (fun _ => rfl) trivial).trans hfirst⟩

/-- The reference equals both objects, looked up or not, and they differ from each other. -/
theorem account_bridges_objects : ∃ found after,
    Objects.banking.resolve (.accountLater 0) = .ok (found, after) ∧
      ∀ objects ∈ [Objects.banking, after],
        objects.sameRef (.account 0) (.accountLater 0) = true ∧
        objects.sameRef (.accountLater 0) (.account 1) = true ∧
        objects.sameRef (.account 0) (.account 1) = false :=
  ⟨_, _, rfl, by decide⟩

end DurableScript
