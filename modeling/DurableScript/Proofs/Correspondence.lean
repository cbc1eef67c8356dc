import DurableScript.Machine
import DurableScript.Proofs.Tables

/-!
Values that differ in their references to host objects at most. Operators do not tell them apart,
unless they compare objects or turn them into text.
-/

namespace DurableScript

namespace ObjectRef

/-- The references lead to one object for sure: by its serial number, or by the cell that will hold
it. -/
def SameHandle : ObjectRef Value → ObjectRef Value → Prop
  | .ready serial _, .ready other _ => serial = other
  | .lazy cell _, .lazy other _ => cell = other
  | _, _ => False

theorem SameHandle.refl : ∀ ref : ObjectRef Value, ref.SameHandle ref
  | .ready _ _ | .lazy _ _ => rfl

theorem SameHandle.symm : ∀ {ref other : ObjectRef Value}, ref.SameHandle other →
    other.SameHandle ref
  | .ready _ _, .ready _ _, h | .lazy _ _, .lazy _ _, h => Eq.symm h

/-- One serial number is one object, and one cell waits for one id. -/
def Compatible : ObjectRef Value → ObjectRef Value → Prop
  | .ready serial object, .ready other object' => serial = other → object = object'
  | .lazy cell id, .lazy other id' => cell = other → id = id'
  | _, _ => True

end ObjectRef

namespace Objects

variable {objects : Objects} {first second : ObjectRef Value}

theorem sameRef_comm (objects : Objects) (left right : ObjectRef Value) :
    objects.sameRef right left = objects.sameRef left right := by
  have hid (p q : Option Persisted) : sameId q p = sameId p q := by
    unfold sameId
    split
    · exact Bool.beq_comm
    · next h =>
      split
      · next id other => exact absurd rfl (h other id rfl)
      · rfl
  cases left <;> cases right <;> simp [sameRef, sameCell, hid, Bool.beq_comm]

theorem persisted_eq_of_sameHandle (hcompatible : first.Compatible second)
    (h : first.SameHandle second) : objects.persisted first = objects.persisted second := by
  cases first <;> cases second <;> try contradiction
  all_goals
    cases h
    cases hcompatible rfl
    rfl

def Linked (objects : Objects) (first second : ObjectRef Value) : Prop :=
  first.SameHandle second ∨ ∃ id, objects.persisted first = some (.reference id) ∧
    objects.persisted second = some (.reference id)

theorem sameId_eq_true_iff {p q : Option Persisted} :
    sameId p q = true ↔ ∃ id, p = some (.reference id) ∧ q = some (.reference id) := by
  refine ⟨fun h => ?_, ?_⟩
  · unfold sameId at h
    split at h
    · next id other => exact ⟨id, rfl, by rw [eq_of_beq h]⟩
    · cases h
  · rintro ⟨id, rfl, rfl⟩
    exact beq_self_eq_true id

theorem Linked.symm (h : objects.Linked first second) : objects.Linked second first :=
  h.imp ObjectRef.SameHandle.symm fun ⟨id, hfirst, hsecond⟩ => ⟨id, hsecond, hfirst⟩

theorem sameRef_lazy_iff {cell : Nat} {id : String} :
    objects.sameRef (.lazy cell id) first = true ↔ objects.Linked (.lazy cell id) first := by
  rw [Linked, ← sameId_eq_true_iff]
  refine Bool.or_eq_true_iff.trans (or_congr_left ?_)
  cases first with
  | ready => exact iff_of_false nofun not_false
  | lazy => exact beq_iff_eq

theorem Linked.of_sameRef (h : objects.sameRef first second = true) :
    objects.Linked first second := by
  cases first with
  | lazy => exact sameRef_lazy_iff.1 h
  | ready =>
    cases second with
    | ready => exact .inl (eq_of_beq h)
    | lazy => exact (sameRef_lazy_iff.1 ((sameRef_comm _ _ _).trans h)).symm

end Objects

namespace Value

mutual

def refs : Value → List (ObjectRef Value)
  | list items => refsItems items
  | record fields => refsFields fields
  | object ref => [ref]
  | _ => []

def refsItems : List Value → List (ObjectRef Value)
  | [] => []
  | item :: rest => refs item ++ refsItems rest

def refsFields : List (String × Value) → List (ObjectRef Value)
  | [] => []
  | (_, value) :: rest => refs value ++ refsFields rest

end

mutual

/-- The second value is the first, with related references in place of its own. -/
def Matches (R : ObjectRef Value → ObjectRef Value → Prop) : Value → Value → Prop
  | list items, other => ∃ items', other = list items' ∧ MatchesItems R items items'
  | record fields, other => ∃ fields', other = record fields' ∧ MatchesFields R fields fields'
  | object ref, other => ∃ ref', other = object ref' ∧ R ref ref'
  | value, other => other = value

def MatchesItems (R : ObjectRef Value → ObjectRef Value → Prop) : List Value → List Value → Prop
  | [], others => others = []
  | item :: rest, others => ∃ item' rest', others = item' :: rest' ∧ Matches R item item' ∧
    MatchesItems R rest rest'

def MatchesFields (R : ObjectRef Value → ObjectRef Value → Prop) :
    List (String × Value) → List (String × Value) → Prop
  | [], others => others = []
  | (name, value) :: rest, others => ∃ value' rest', others = (name, value') :: rest' ∧
    Matches R value value' ∧ MatchesFields R rest rest'

end

mutual

/-- Loosely equal, if any two objects were. -/
def agrees : Value → Value → Bool
  | list xs, list ys => agreesItems xs ys
  | record xs, record ys => xs.length == ys.length && agreesFields xs ys
  | object _, object _ => true
  | left, right => order left right == some .eq

def agreesItems : List Value → List Value → Bool
  | [], [] => true
  | x :: xs, y :: ys => agrees x y && agreesItems xs ys
  | _, _ => false

def agreesFields : List (String × Value) → List (String × Value) → Bool
  | [], _ => true
  | (name, x) :: rest, fields =>
    (match Table.find? name fields with
      | some y => agrees x y
      | none => false) && agreesFields rest fields

end

mutual

/-- The objects that meet when two values are compared. -/
def meetings : Value → Value → List (ObjectRef Value × ObjectRef Value)
  | list xs, list ys => meetingsItems xs ys
  | record xs, record ys => meetingsFields xs ys
  | object left, object right => [(left, right)]
  | _, _ => []

def meetingsItems : List Value → List Value → List (ObjectRef Value × ObjectRef Value)
  | x :: xs, y :: ys => meetings x y ++ meetingsItems xs ys
  | _, _ => []

def meetingsFields : List (String × Value) → List (String × Value) →
    List (ObjectRef Value × ObjectRef Value)
  | [], _ => []
  | (name, x) :: rest, fields =>
    (match Table.find? name fields with
      | some y => meetings x y
      | none => []) ++ meetingsFields rest fields

end

section LooseEq

variable (objects : Objects)

mutual

theorem looseEq_eq : ∀ left right : Value, looseEq objects left right =
    (agrees left right && (meetings left right).all fun pair => objects.sameRef pair.1 pair.2)
  | list xs, right => by
    cases right with
    | list ys => rw [looseEq, agrees, meetings, looseEqItems_eq]
    | _ => exact (Bool.and_true _).symm
  | record xs, right => by
    cases right with
    | record ys => rw [looseEq, agrees, meetings, looseEqFields_eq, Bool.and_assoc]
    | _ => exact (Bool.and_true _).symm
  | object left, right => by
    cases right with
    | object right => simp [looseEq, agrees, meetings]
    | _ => exact (Bool.and_true _).symm
  | null, _ | bool _, _ | int _, _ | float _, _ | str _, _ => by simp [looseEq, agrees, meetings]

theorem looseEqItems_eq : ∀ xs ys : List Value, looseEqItems objects xs ys =
    (agreesItems xs ys && (meetingsItems xs ys).all fun pair => objects.sameRef pair.1 pair.2)
  | [], [] => rfl
  | [], _ :: _ | _ :: _, [] => rfl
  | x :: xs, y :: ys => by
    rw [looseEqItems, agreesItems, meetingsItems, List.all_append, looseEq_eq x y,
      looseEqItems_eq xs ys]
    ac_rfl

theorem looseEqFields_eq : ∀ xs ys : List (String × Value), looseEqFields objects xs ys =
    (agreesFields xs ys && (meetingsFields xs ys).all fun pair => objects.sameRef pair.1 pair.2)
  | [], _ => rfl
  | (name, x) :: rest, ys => by
    rw [looseEqFields, agreesFields, meetingsFields, List.all_append, looseEqFields_eq rest ys]
    cases Table.find? name ys with
    | none => rfl
    | some y =>
      simp only [looseEq_eq x y]
      ac_rfl

end

theorem looseEq_iff {left right : Value} : looseEq objects left right = true ↔
    agrees left right = true ∧ ∀ pair ∈ meetings left right, objects.sameRef pair.1 pair.2 = true := by
  rw [looseEq_eq, Bool.and_eq_true, List.all_eq_true]

end LooseEq

variable {R S : ObjectRef Value → ObjectRef Value → Prop}

theorem mem_refsItems {ref : ObjectRef Value} {items : List Value} :
    ref ∈ refsItems items ↔ ∃ item ∈ items, ref ∈ item.refs := by
  induction items with
  | nil => simp [refsItems]
  | cons item rest ih => simp [refsItems, ih]

theorem mem_refsFields {ref : ObjectRef Value} {fields : List (String × Value)} :
    ref ∈ refsFields fields ↔ ∃ entry ∈ fields, ref ∈ entry.2.refs := by
  induction fields with
  | nil => simp [refsFields]
  | cons entry rest ih => simp [refsFields, ih]

theorem matchesItems_iff {xs ys : List Value} :
    MatchesItems R xs ys ↔ List.Forall₂ (Matches R) xs ys := by
  induction xs generalizing ys with
  | nil => simp [MatchesItems]
  | cons x xs ih => simp only [MatchesItems, List.forall₂_cons_left_iff, ih]; grind

theorem matchesFields_iff {xs ys : List (String × Value)} : MatchesFields R xs ys ↔
      List.Forall₂ (fun a b => a.1 = b.1 ∧ a.2.Matches R b.2) xs ys := by
  induction xs generalizing ys with
  | nil => simp [MatchesFields]
  | cons x xs ih =>
    obtain ⟨name, value⟩ := x
    simp only [MatchesFields, List.forall₂_cons_left_iff, ih, Prod.exists]
    grind

mutual

theorem Matches.imp : ∀ {value other : Value}, value.Matches R other →
    (∀ r ∈ value.refs, ∀ q ∈ other.refs, R r q → S r q) → value.Matches S other
  | null, _, h, _ | bool _, _, h, _ | int _, _, h, _ | float _, _, h, _ | str _, _, h, _ => h
  | list _, _, ⟨items, rfl, h⟩, hRS => ⟨items, rfl, MatchesItems.imp h hRS⟩
  | record _, _, ⟨fields, rfl, h⟩, hRS => ⟨fields, rfl, MatchesFields.imp h hRS⟩
  | object r, _, ⟨q, rfl, h⟩, hRS =>
    ⟨q, rfl, hRS r (List.mem_singleton_self r) q (List.mem_singleton_self q) h⟩

theorem MatchesItems.imp : ∀ {items others : List Value}, MatchesItems R items others →
    (∀ r ∈ refsItems items, ∀ q ∈ refsItems others, R r q → S r q) → MatchesItems S items others
  | [], _, h, _ => h
  | _ :: _, _, ⟨item, rest, rfl, h, hrest⟩, hRS =>
    ⟨item, rest, rfl,
      Matches.imp h fun r hr q hq => hRS r (List.mem_append_left _ hr) q (List.mem_append_left _ hq),
      MatchesItems.imp hrest fun r hr q hq =>
        hRS r (List.mem_append_right _ hr) q (List.mem_append_right _ hq)⟩

theorem MatchesFields.imp : ∀ {fields others : List (String × Value)},
    MatchesFields R fields others →
    (∀ r ∈ refsFields fields, ∀ q ∈ refsFields others, R r q → S r q) →
    MatchesFields S fields others
  | [], _, h, _ => h
  | (_, _) :: _, _, ⟨value, rest, rfl, h, hrest⟩, hRS =>
    ⟨value, rest, rfl,
      Matches.imp h fun r hr q hq => hRS r (List.mem_append_left _ hr) q (List.mem_append_left _ hq),
      MatchesFields.imp hrest fun r hr q hq =>
        hRS r (List.mem_append_right _ hr) q (List.mem_append_right _ hq)⟩

end

theorem Matches.mono {value other : Value} (h : value.Matches R other)
    (hRS : ∀ r q, R r q → S r q) : value.Matches S other := h.imp fun r _ q _ => hRS r q

mutual

theorem matches_self : ∀ value : Value, (∀ r ∈ value.refs, R r r) → value.Matches R value
  | null, _ | bool _, _ | int _, _ | float _, _ | str _, _ => rfl
  | list items, h => ⟨items, rfl, matchesItems_self items h⟩
  | record fields, h => ⟨fields, rfl, matchesFields_self fields h⟩
  | object r, h => ⟨r, rfl, h r (List.mem_singleton_self r)⟩

theorem matchesItems_self : ∀ items : List Value, (∀ r ∈ refsItems items, R r r) →
    MatchesItems R items items
  | [], _ => rfl
  | item :: rest, h => ⟨item, rest, rfl, matches_self item fun r hr => h r (List.mem_append_left _ hr),
    matchesItems_self rest fun r hr => h r (List.mem_append_right _ hr)⟩

theorem matchesFields_self : ∀ fields : List (String × Value), (∀ r ∈ refsFields fields, R r r) →
    MatchesFields R fields fields
  | [], _ => rfl
  | (_, value) :: rest, h =>
    ⟨value, rest, rfl, matches_self value fun r hr => h r (List.mem_append_left _ hr),
      matchesFields_self rest fun r hr => h r (List.mem_append_right _ hr)⟩

end

mutual

theorem Matches.eq : ∀ {value other : Value}, value.Matches Eq other → other = value
  | null, _, h | bool _, _, h | int _, _, h | float _, _, h | str _, _, h => h
  | list _, _, ⟨_, rfl, h⟩ => congrArg list h.eq
  | record _, _, ⟨_, rfl, h⟩ => congrArg record h.eq
  | object _, _, ⟨_, rfl, rfl⟩ => rfl

theorem MatchesItems.eq : ∀ {items others : List Value}, MatchesItems Eq items others →
    others = items
  | [], _, h => h
  | _ :: _, _, ⟨_, _, rfl, h, hrest⟩ => by rw [h.eq, hrest.eq]

theorem MatchesFields.eq : ∀ {fields others : List (String × Value)}, MatchesFields Eq fields others →
    others = fields
  | [], _, h => h
  | (_, _) :: _, _, ⟨_, _, rfl, h, hrest⟩ => by rw [h.eq, hrest.eq]

end

section Operators

variable {left right left' right' : Value}

section

variable (h : left.Matches R left')
include h

theorem Matches.truthy_eq : left'.truthy = left.truthy := by
  cases left with
  | list items =>
    obtain ⟨items', rfl, h⟩ := h
    cases items with
    | nil => cases h; rfl
    | cons => obtain ⟨_, _, rfl, -⟩ := h; rfl
  | record fields =>
    obtain ⟨fields', rfl, h⟩ := h
    cases fields with
    | nil => cases h; rfl
    | cons => obtain ⟨_, _, rfl, -⟩ := h; rfl
  | object ref =>
    obtain ⟨_, rfl, -⟩ := h
    rfl
  | _ => rw [h]

theorem Matches.congr {α : Type} {f : Value → α} (hlist : ∀ xs ys, f (list xs) = f (list ys))
    (hrecord : ∀ xs ys, f (record xs) = f (record ys))
    (hobject : ∀ r q, f (object r) = f (object q)) : f left' = f left := by
  cases left with
  | list | record | object =>
    obtain ⟨_, rfl, -⟩ := h
    apply_assumption
  | _ => rw [h]

theorem Matches.typeName_eq : left'.typeName = left.typeName :=
  h.congr (fun _ _ => rfl) (fun _ _ => rfl) fun _ _ => rfl

theorem Matches.isStr_eq : left'.isStr = left.isStr :=
  h.congr (fun _ _ => rfl) (fun _ _ => rfl) fun _ _ => rfl

theorem Matches.number_eq (op : Operator) : left'.number op = left.number op :=
  h.congr (fun _ _ => rfl) (fun _ _ => rfl) fun _ _ => rfl

theorem Matches.calculate_eq (h' : right.Matches R right') (operation : Operation) :
    calculate operation left' right' = calculate operation left right := by
  rw [calculate, calculate, h.number_eq, h'.number_eq]

theorem Matches.remainder_eq (h' : right.Matches R right') :
    remainder left' right' = remainder left right := by
  rw [remainder, remainder, h.number_eq, h'.number_eq]

theorem Matches.orderPlain_eq (h' : right.Matches R right') :
    orderPlain left' right' = orderPlain left right := by
  have htruth : orderTruth left' right' = orderTruth left right := by
    rw [orderTruth, orderTruth, h.truthy_eq, h'.truthy_eq]
  cases left with
  | list | record | object =>
    obtain ⟨_, rfl, -⟩ := h
    cases right with
    | list | record | object =>
      obtain ⟨_, rfl, -⟩ := h'
      rfl
    | null | bool =>
      cases h'
      exact congrArg some htruth
    | _ =>
      cases h'
      rfl
  | null | bool =>
    cases h
    cases right with
    | list | record | object =>
      obtain ⟨_, rfl, -⟩ := h'
      exact congrArg some htruth
    | _ => rw [h']
  | _ =>
    cases h
    cases right with
    | list | record | object =>
      obtain ⟨_, rfl, -⟩ := h'
      rfl
    | _ => rw [h']

end

theorem MatchesItems.length_eq {xs ys : List Value} (h : MatchesItems R xs ys) :
    ys.length = xs.length := (matchesItems_iff.1 h).length_eq.symm

theorem MatchesFields.length_eq {xs ys : List (String × Value)} (h : MatchesFields R xs ys) :
    ys.length = xs.length := (matchesFields_iff.1 h).length_eq.symm

mutual

theorem Matches.order_eq : ∀ {left right left' right' : Value}, left.Matches R left' →
    right.Matches R right' → order left' right' = order left right
  | list xs, right, _, _, hleft, hright => by
    have hplain := hleft.orderPlain_eq hright
    obtain ⟨_, rfl, h⟩ := hleft
    cases right with
    | list ys =>
      obtain ⟨_, rfl, h'⟩ := hright
      rw [order, order, h.length_eq, h'.length_eq, MatchesItems.orderItems_eq h h']
    | record | object =>
      obtain ⟨_, rfl, -⟩ := hright
      exact hplain
    | null | bool | int | float | str =>
      cases hright
      exact hplain
  | record _, _, _, _, h@⟨_, rfl, _⟩, h' | object _, _, _, _, h@⟨_, rfl, _⟩, h'
  | null, _, _, _, h@rfl, h' | bool _, _, _, _, h@rfl, h' | int _, _, _, _, h@rfl, h' =>
    Matches.orderPlain_eq h h'
  | float _, _, _, _, h@rfl, h' | str _, _, _, _, h@rfl, h' => Matches.orderPlain_eq h h'
termination_by structural left => left

theorem MatchesItems.orderItems_eq : ∀ {xs ys xs' ys' : List Value}, MatchesItems R xs xs' →
    MatchesItems R ys ys' → orderItems xs' ys' = orderItems xs ys
  | [], _, _, _, rfl, _ => rfl
  | _ :: _, [], _, _, ⟨_, _, rfl, _, _⟩, rfl => rfl
  | _ :: _, _ :: _, _, _, ⟨_, _, rfl, h, hrest⟩, ⟨_, _, rfl, h', hrest'⟩ => by
    rw [orderItems, orderItems, Matches.order_eq h h', MatchesItems.orderItems_eq hrest hrest']
termination_by structural xs => xs

end

def MatchesPair (R : ObjectRef Value → ObjectRef Value → Prop)
    (pair other : ObjectRef Value × ObjectRef Value) : Prop := R pair.1 other.1 ∧ R pair.2 other.2

theorem MatchesFields.find? {xs ys : List (String × Value)} (h : MatchesFields R xs ys)
    (name : String) : Option.Rel (Matches R) (Table.find? name xs) (Table.find? name ys) :=
  Table.related_of_forall₂ (matchesFields_iff.1 h) name

mutual

theorem Matches.agrees_eq : ∀ {left right left' right' : Value}, left.Matches R left' →
    right.Matches R right' → agrees left' right' = agrees left right
  | list xs, right, _, _, hleft, hright => by
    have horder := congrArg (· == some Ordering.eq) (hleft.order_eq hright)
    obtain ⟨_, rfl, h⟩ := hleft
    cases right with
    | list ys =>
      obtain ⟨_, rfl, h'⟩ := hright
      exact MatchesItems.agreesItems_eq h h'
    | record | object =>
      obtain ⟨_, rfl, -⟩ := hright
      exact horder
    | null | bool | int | float | str =>
      cases hright
      exact horder
  | record xs, right, _, _, hleft, hright => by
    have horder := congrArg (· == some Ordering.eq) (hleft.order_eq hright)
    obtain ⟨_, rfl, h⟩ := hleft
    cases right with
    | record ys =>
      obtain ⟨_, rfl, h'⟩ := hright
      rw [agrees, agrees, h.length_eq, h'.length_eq, MatchesFields.agreesFields_eq h h']
    | list | object =>
      obtain ⟨_, rfl, -⟩ := hright
      exact horder
    | null | bool | int | float | str =>
      cases hright
      exact horder
  | object r, right, _, _, hleft, hright => by
    have horder := congrArg (· == some Ordering.eq) (hleft.order_eq hright)
    obtain ⟨_, rfl, h⟩ := hleft
    cases right with
    | object =>
      obtain ⟨_, rfl, -⟩ := hright
      rfl
    | list | record =>
      obtain ⟨_, rfl, -⟩ := hright
      exact horder
    | null | bool | int | float | str =>
      cases hright
      exact horder
  | null, _, _, _, rfl, h | bool _, _, _, _, rfl, h | int _, _, _, _, rfl, h
  | float _, _, _, _, rfl, h | str _, _, _, _, rfl, h =>
    congrArg (· == some Ordering.eq) (Matches.order_eq rfl h)
termination_by structural left => left

theorem MatchesItems.agreesItems_eq : ∀ {xs ys xs' ys' : List Value}, MatchesItems R xs xs' →
    MatchesItems R ys ys' → agreesItems xs' ys' = agreesItems xs ys
  | [], [], _, _, rfl, rfl => rfl
  | [], _ :: _, _, _, rfl, ⟨_, _, rfl, _, _⟩ => rfl
  | _ :: _, [], _, _, ⟨_, _, rfl, _, _⟩, rfl => rfl
  | _ :: _, _ :: _, _, _, ⟨_, _, rfl, h, hrest⟩, ⟨_, _, rfl, h', hrest'⟩ => by
    rw [agreesItems, agreesItems, Matches.agrees_eq h h', MatchesItems.agreesItems_eq hrest hrest']
termination_by structural xs => xs

theorem MatchesFields.agreesFields_eq : ∀ {xs ys xs' ys' : List (String × Value)},
    MatchesFields R xs xs' → MatchesFields R ys ys' → agreesFields xs' ys' = agreesFields xs ys
  | [], _, _, _, rfl, _ => rfl
  | (name, _) :: _, _, _, _, ⟨_, _, rfl, h, hrest⟩, h' => by
    rw [agreesFields, agreesFields, MatchesFields.agreesFields_eq hrest h']
    have hfound := h'.find? name
    revert hfound
    generalize Table.find? name _ = found
    generalize Table.find? name _ = found'
    intro hfound
    cases hfound with
    | none => rfl
    | some hfound => simp only [Matches.agrees_eq h hfound]
termination_by structural xs => xs

end

mutual

theorem Matches.meetings : ∀ {left right left' right' : Value}, left.Matches R left' →
    right.Matches R right' →
    List.Forall₂ (MatchesPair R) (meetings left right) (meetings left' right')
  | list xs, right, _, _, ⟨_, rfl, h⟩, hright => by
    cases right with
    | list ys =>
      obtain ⟨_, rfl, h'⟩ := hright
      exact MatchesItems.meetings h h'
    | record | object =>
      obtain ⟨_, rfl, -⟩ := hright
      exact .nil
    | null | bool | int | float | str =>
      cases hright
      exact .nil
  | record xs, right, _, _, ⟨_, rfl, h⟩, hright => by
    cases right with
    | record ys =>
      obtain ⟨_, rfl, h'⟩ := hright
      exact MatchesFields.meetings h h'
    | list | object =>
      obtain ⟨_, rfl, -⟩ := hright
      exact .nil
    | null | bool | int | float | str =>
      cases hright
      exact .nil
  | object r, right, _, _, ⟨_, rfl, h⟩, hright => by
    cases right with
    | object q =>
      obtain ⟨_, rfl, h'⟩ := hright
      exact .cons ⟨h, h'⟩ .nil
    | list | record =>
      obtain ⟨_, rfl, -⟩ := hright
      exact .nil
    | null | bool | int | float | str =>
      cases hright
      exact .nil
  | null, _, _, _, rfl, _ | bool _, _, _, _, rfl, _ | int _, _, _, _, rfl, _ => .nil
  | float _, _, _, _, rfl, _ | str _, _, _, _, rfl, _ => .nil
termination_by structural left => left

theorem MatchesItems.meetings : ∀ {xs ys xs' ys' : List Value}, MatchesItems R xs xs' →
    MatchesItems R ys ys' →
    List.Forall₂ (MatchesPair R) (meetingsItems xs ys) (meetingsItems xs' ys')
  | [], _, _, _, rfl, _ => .nil
  | _ :: _, [], _, _, ⟨_, _, rfl, _, _⟩, rfl => .nil
  | _ :: _, _ :: _, _, _, ⟨_, _, rfl, h, hrest⟩, ⟨_, _, rfl, h', hrest'⟩ =>
    List.rel_append (Matches.meetings h h') (MatchesItems.meetings hrest hrest')
termination_by structural xs => xs

theorem MatchesFields.meetings : ∀ {xs ys xs' ys' : List (String × Value)},
    MatchesFields R xs xs' → MatchesFields R ys ys' →
    List.Forall₂ (MatchesPair R) (meetingsFields xs ys) (meetingsFields xs' ys')
  | [], _, _, _, rfl, _ => .nil
  | (name, _) :: _, _, _, _, ⟨_, _, rfl, h, hrest⟩, h' => by
    refine List.rel_append ?_ (MatchesFields.meetings hrest h')
    have hfound := h'.find? name
    revert hfound
    generalize Table.find? name _ = found
    generalize Table.find? name _ = found'
    intro hfound
    cases hfound with
    | none => exact .nil
    | some hfound => exact Matches.meetings h hfound
termination_by structural xs => xs

end

theorem Matches.forall_mem_meetings_iff {P Q : ObjectRef Value × ObjectRef Value → Prop}
    (h : left.Matches R left') (h' : right.Matches R right')
    (hiff : ∀ pair other, MatchesPair R pair other → other ∈ Value.meetings left' right' →
      (Q other ↔ P pair)) :
    (∀ other ∈ Value.meetings left' right', Q other) ↔ ∀ pair ∈ Value.meetings left right, P pair := by
  have hmeetings := h.meetings h'
  generalize Value.meetings left right = pairs at hmeetings
  generalize Value.meetings left' right' = others at hmeetings hiff
  induction hmeetings with
  | nil => simp
  | cons hpair _ ih =>
    rw [List.forall_mem_cons, List.forall_mem_cons]
    refine and_congr (hiff _ _ hpair List.mem_cons_self) (ih fun pair other hpair hmem => ?_)
    exact hiff pair other hpair (List.mem_cons_of_mem _ hmem)

theorem Matches.looseEq_eq {objects store : Objects} (h : left.Matches R left')
    (h' : right.Matches R right')
    (hsame : ∀ pair other, MatchesPair R pair other → other ∈ Value.meetings left' right' →
      store.sameRef other.1 other.2 = objects.sameRef pair.1 pair.2) :
    looseEq store left' right' = looseEq objects left right := by
  rw [Bool.eq_iff_iff, looseEq_iff, looseEq_iff, h.agrees_eq h']
  refine and_congr_right' (h.forall_mem_meetings_iff h' fun pair other hpair hmem => ?_)
  rw [hsame pair other hpair hmem]

mutual

theorem Matches.text_eq {objects store : Objects}
    (hlabel : ∀ r q, R r q → store.label q = objects.label r) :
    ∀ {value other : Value}, value.Matches R other → other.text store = value.text objects
  | null, _, rfl | bool true, _, rfl | bool false, _, rfl => rfl
  | int _, _, rfl | float _, _, rfl | str _, _, rfl => rfl
  | list _, _, ⟨_, rfl, h⟩ => by rw [text, text, MatchesItems.texts_eq hlabel h]
  | record _, _, ⟨_, rfl, h⟩ => by rw [text, text, MatchesFields.fieldTexts_eq hlabel h]
  | object r, _, ⟨q, rfl, h⟩ => hlabel r q h

theorem MatchesItems.texts_eq {objects store : Objects}
    (hlabel : ∀ r q, R r q → store.label q = objects.label r) :
    ∀ {items others : List Value}, MatchesItems R items others →
      texts store others = texts objects items
  | [], _, rfl => rfl
  | _ :: _, _, ⟨_, _, rfl, h, hrest⟩ => by
    rw [texts, texts, Matches.text_eq hlabel h, MatchesItems.texts_eq hlabel hrest]

theorem MatchesFields.fieldTexts_eq {objects store : Objects}
    (hlabel : ∀ r q, R r q → store.label q = objects.label r) :
    ∀ {fields others : List (String × Value)}, MatchesFields R fields others →
      fieldTexts store others = fieldTexts objects fields
  | [], _, rfl => rfl
  | (_, _) :: _, _, ⟨_, _, rfl, h, hrest⟩ => by
    rw [fieldTexts, fieldTexts, Matches.text_eq hlabel h, MatchesFields.fieldTexts_eq hlabel hrest]

end

end Operators

end Value

structure Frame.Matches (R : ObjectRef Value → ObjectRef Value → Prop) (frame other : Frame) :
    Prop where
  vars : List.Forall₂ (fun a b => a.1 = b.1 ∧ a.2.Matches R b.2) frame.vars other.vars
  stack : List.Forall₂ (Value.Matches R) frame.stack other.stack
  result : frame.result.Matches R other.result
  returnTo : other.returnTo = frame.returnTo

structure Execution.Resembles (R : ObjectRef Value → ObjectRef Value → Prop)
    (execution other : Execution) : Prop where
  program : other.program = execution.program
  globals : execution.globals.Matches R other.globals
  calls : List.Forall₂ (Frame.Matches R) execution.calls other.calls
  pc : other.pc = execution.pc
  lastInterrupt : other.lastInterrupt = execution.lastInterrupt

theorem Execution.Resembles.frames {R : ObjectRef Value → ObjectRef Value → Prop}
    {execution other : Execution} (h : execution.Resembles R other) :
    List.Forall₂ (Frame.Matches R) execution.frames other.frames :=
  .cons h.globals (List.rel_reverse h.calls)

structure Execution.Matches (R : ObjectRef Value → ObjectRef Value → Prop)
    (execution other : Execution) : Prop extends execution.Resembles R other where
  steps : other.steps = execution.steps

theorem Execution.matches_of_ofFrames? {R : ObjectRef Value → ObjectRef Value → Prop}
    {program : Program} {frames others : List Frame} {pc steps : Nat}
    {lastInterrupt : Option InterruptKind} {execution : Execution}
    (h : ofFrames? program frames pc steps lastInterrupt = some execution)
    (hframes : List.Forall₂ (Frame.Matches R) frames others) :
    ∃ other, ofFrames? program others pc steps lastInterrupt = some other ∧
      execution.Matches R other := by
  cases hframes with
  | nil => cases h
  | cons hglobals hcalls =>
    simp only [ofFrames?] at h ⊢
    split at h
    · next hpc =>
      cases h
      exact ⟨_, if_pos hpc, ⟨rfl, hglobals, List.rel_reverse hcalls, rfl, rfl⟩, rfl⟩
    · cases h

end DurableScript
