import DurableScript.Proofs.Correspondence
import DurableScript.Proofs.NumberOrder
import DurableScript.Proofs.TaggedText
import DurableScript.Value.Arithmetic
import Mathlib.Data.List.Perm.Subperm

namespace DurableScript

namespace Table

theorem keys_subset_of_length_eq {α : Type} {xs ys : Table α} (hdistinct : Distinct xs)
    (hlength : xs.length = ys.length) (h : keys xs ⊆ keys ys) : keys ys ⊆ keys xs := by
  have hle : (keys ys).length ≤ (keys xs).length := by
    rw [keys, keys, List.length_map, List.length_map, hlength]
  exact ((List.subperm_of_subset hdistinct h).perm_of_length_le hle).symm.subset

end Table

namespace Value

section Order

theorem orderTexts_swap (s t : String) : orderTexts t s = (orderTexts s t).swap :=
  Std.OrientedOrd.eq_swap

theorem orderTruth_swap (left right : Value) :
    orderTruth right left = (orderTruth left right).swap := Std.OrientedOrd.eq_swap

theorem orderTextNumber_eq_swap (s : String) (n : Number) (written : String) :
    orderTextNumber s n written = (orderNumberText n written s).map Ordering.swap := by
  unfold orderTextNumber orderNumberText
  split
  · exact Number.order_swap ..
  · exact congrArg some (orderTexts_swap ..)

theorem orderNumberText_eq_swap (s : String) (n : Number) (written : String) :
    orderNumberText n written s = (orderTextNumber s n written).map Ordering.swap := by
  unfold orderTextNumber orderNumberText
  split
  · exact Number.order_swap ..
  · exact congrArg some (orderTexts_swap ..)

theorem orderStrs_swap (s t : String) : orderStrs t s = (orderStrs s t).map Ordering.swap := by
  unfold orderStrs
  cases Number.ofText? s with
  | none =>
    cases Number.ofText? t <;> exact congrArg some (orderTexts_swap s t)
  | some m =>
    cases Number.ofText? t with
    | none => exact congrArg some (orderTexts_swap s t)
    | some n => exact Number.order_swap m n

theorem orderPlain_swap {left right : Value} (h : left.list? = none ∨ right.list? = none) :
    orderPlain right left = (orderPlain left right).map Ordering.swap := by
  have htruth : some (orderTruth right left) = (some (orderTruth left right)).map Ordering.swap :=
    congrArg some (orderTruth_swap left right)
  cases left with
  | null =>
    cases right with
    | null => rfl
    | str t => exact congrArg some (orderTexts_swap "" t)
    | _ => exact htruth
  | bool => cases right <;> exact htruth
  | int m =>
    cases right with
    | null | bool => exact htruth
    | int n => exact congrArg some (Number.orderInts_swap m n)
    | float y => exact Number.order_swap (.int m) (.float y)
    | str t => exact orderTextNumber_eq_swap ..
    | list | record | object => rfl
  | float x =>
    cases right with
    | null | bool => exact htruth
    | int n => exact Number.order_swap (.float x) (.int n)
    | float y => exact Number.order_swap (.float x) (.float y)
    | str t => exact orderTextNumber_eq_swap ..
    | list | record | object => rfl
  | str s =>
    cases right with
    | null => exact congrArg some (orderTexts_swap s "")
    | bool => exact htruth
    | int | float => exact orderNumberText_eq_swap ..
    | str t => exact orderStrs_swap s t
    | list | record | object => rfl
  | list =>
    cases right with
    | null | bool => exact htruth
    | list => simp [list?] at h
    | int | float | str | record | object => rfl
  | record | object =>
    cases right with
    | null | bool => exact htruth
    | int | float | str | list | record | object => rfl

theorem order_eq_orderPlain {left right : Value} (h : left.list? = none ∨ right.list? = none) :
    order left right = orderPlain left right := by
  cases left with
  | list =>
    cases right with
    | list => simp [list?] at h
    | _ => rfl
  | _ => cases right <;> rfl

theorem order_swap_of_list? {left right : Value} (h : left.list? = none ∨ right.list? = none) :
    order right left = (order left right).map Ordering.swap := by
  rw [order_eq_orderPlain h, order_eq_orderPlain h.symm]
  exact orderPlain_swap h

mutual

theorem order_swap : ∀ left right : Value, order right left = (order left right).map Ordering.swap
  | list xs, right => by
    cases right with
    | list ys =>
      rw [order, order]
      by_cases hlength : xs.length = ys.length
      · rw [if_pos hlength, if_pos hlength.symm]
        exact orderItems_swap xs ys
      · rw [if_neg hlength, if_neg (Ne.symm hlength)]
        exact congrArg some Std.OrientedOrd.eq_swap
    | _ => exact order_swap_of_list? (.inr rfl)
  | null, _ | bool _, _ | int _, _ | float _, _ | str _, _ | record _, _ | object _, _ =>
    order_swap_of_list? (.inl rfl)

theorem orderItems_swap : ∀ xs ys : List Value,
    orderItems ys xs = (orderItems xs ys).map Ordering.swap
  | [], [] | [], _ :: _ | _ :: _, [] => rfl
  | x :: xs, y :: ys => by
    rw [orderItems, orderItems, order_swap x y]
    cases order x y with
    | none => rfl
    | some ordering =>
      cases ordering with
      | eq => exact orderItems_swap xs ys
      | lt | gt => rfl

end

theorem order_beq_swap (left right : Value) (ordering : Ordering) :
    (order right left == some ordering.swap) = (order left right == some ordering) := by
  rw [order_swap left right]
  cases order left right with
  | none => rfl
  | some found => cases found <;> cases ordering <;> rfl

end Order

section Symmetry

variable {objects : Objects}

def SameShape : Value → Value → Prop
  | list _, list _ | record _, record _ | object _, object _ => True
  | _, _ => False

theorem SameShape.symm {left right : Value} (h : left.SameShape right) : right.SameShape left := by
  cases left <;> cases right <;> exact h

theorem looseEq_of_not_sameShape {left right : Value} (h : ¬ left.SameShape right) :
    looseEq objects left right = (order left right == some .eq) := by
  cases left with
  | list | record | object =>
    cases right with
    | list | record | object => first | rfl | exact absurd trivial h
    | _ => rfl
  | _ => cases right <;> rfl

theorem looseEq_symm_of_not_sameShape {left right : Value} (h : ¬ left.SameShape right)
    (heq : looseEq objects left right = true) : looseEq objects right left = true := by
  rw [looseEq_of_not_sameShape h] at heq
  rw [looseEq_of_not_sameShape (mt SameShape.symm h)]
  exact (order_beq_swap left right .eq).trans heq

theorem wellNamedFields_iff {fields : List (String × Value)} :
    WellNamedFields fields ↔ ∀ entry ∈ fields, WellNamed entry.2 := by
  induction fields with
  | nil => simp [WellNamedFields]
  | cons entry fields ih => simp [WellNamedFields, ih]

theorem looseEqFields_iff {xs ys : List (String × Value)} : looseEqFields objects xs ys = true ↔
      ∀ entry ∈ xs, ∃ y, Table.find? entry.1 ys = some y ∧ looseEq objects entry.2 y = true := by
  induction xs with
  | nil => simp [looseEqFields]
  | cons entry xs ih =>
    rw [looseEqFields, Bool.and_eq_true, ih, List.forall_mem_cons]
    cases Table.find? entry.1 ys <;> simp

mutual

theorem looseEq_symm : ∀ left right : Value, left.WellNamed → right.WellNamed →
    looseEq objects left right = true → looseEq objects right left = true
  | list xs, right, hxs, hright, h => by
    cases right with
    | list ys => exact looseEqItems_symm xs ys hxs hright h
    | _ => exact looseEq_symm_of_not_sameShape id h
  | record xs, right, ⟨hdistinct, hxs⟩, hright, h => by
    cases right with
    | record ys =>
      obtain ⟨hlength, hfields⟩ := Bool.and_eq_true_iff.1 h
      replace hlength : xs.length = ys.length := beq_iff_eq.1 hlength
      have hback := looseEqFields_symm xs ys hxs hright.2 hfields
      have hkeys : Table.keys ys ⊆ Table.keys xs := by
        refine Table.keys_subset_of_length_eq hdistinct hlength fun name hname => ?_
        obtain ⟨entry, hentry, rfl⟩ := List.mem_map.1 hname
        obtain ⟨y, hfound, -⟩ := looseEqFields_iff.1 hfields entry hentry
        exact List.mem_map.2 ⟨_, Table.mem_of_find? hfound, rfl⟩
      have hfields' : looseEqFields objects ys xs = true := by
        refine looseEqFields_iff.2 fun (name, y) hy => ?_
        obtain ⟨⟨_, x⟩, hx, rfl⟩ := List.mem_map.1 (hkeys (List.mem_map_of_mem hy))
        exact ⟨x, Table.find?_of_mem hdistinct hx,
          hback _ hx y (Table.find?_of_mem hright.1 hy)⟩
      exact Bool.and_eq_true_iff.2 ⟨beq_iff_eq.2 hlength.symm, hfields'⟩
    | _ => exact looseEq_symm_of_not_sameShape id h
  | object left, right, _, _, h => by
    cases right with
    | object right => exact (objects.sameRef_comm left right).trans h
    | _ => exact looseEq_symm_of_not_sameShape id h
  | null, _, _, _, h | bool _, _, _, _, h | int _, _, _, _, h | float _, _, _, _, h
  | str _, _, _, _, h => looseEq_symm_of_not_sameShape id h
termination_by structural left => left

theorem looseEqItems_symm : ∀ xs ys : List Value, WellNamedItems xs → WellNamedItems ys →
    looseEqItems objects xs ys = true → looseEqItems objects ys xs = true
  | [], [], _, _, _ => rfl
  | x :: xs, y :: ys, hxs, hys, h => by
    obtain ⟨hfirst, hrest⟩ := Bool.and_eq_true_iff.1 h
    exact Bool.and_eq_true_iff.2
      ⟨looseEq_symm x y hxs.1 hys.1 hfirst, looseEqItems_symm xs ys hxs.2 hys.2 hrest⟩
termination_by structural xs => xs

theorem looseEqFields_symm : ∀ xs ys : List (String × Value), WellNamedFields xs →
    WellNamedFields ys → looseEqFields objects xs ys = true →
    ∀ entry ∈ xs, ∀ y, Table.find? entry.1 ys = some y → looseEq objects y entry.2 = true
  | (name, x) :: xs, ys, hxs, hys, h, entry, hentry, y, hfound => by
    obtain ⟨hfirst, hrest⟩ := Bool.and_eq_true_iff.1 h
    rcases List.mem_cons.1 hentry with rfl | hentry
    · rw [hfound] at hfirst
      exact looseEq_symm x y hxs.1 (wellNamedFields_iff.1 hys _ (Table.mem_of_find? hfound)) hfirst
    · exact looseEqFields_symm xs ys hxs.2 hys hrest entry hentry y hfound
termination_by structural xs => xs

end

theorem looseEq_comm {left right : Value} (hleft : left.WellNamed) (hright : right.WellNamed) :
    looseEq objects right left = looseEq objects left right :=
  Bool.eq_iff_iff.2 ⟨looseEq_symm right left hright hleft, looseEq_symm left right hleft hright⟩

/-- The operands of a comparison may change sides, if the comparison is turned around too. -/
theorem comparison_turns_around (objects : Objects) (left right : Value) :
    order right left = (order left right).map Ordering.swap ∧
      apply objects .gt right left = apply objects .lt left right ∧
      apply objects .lt right left = apply objects .gt left right ∧
      apply objects .ge right left = apply objects .le left right ∧
      apply objects .le right left = apply objects .ge left right ∧
      (left.WellNamed → right.WellNamed →
        looseEq objects right left = looseEq objects left right ∧
          apply objects .eq right left = apply objects .eq left right ∧
          apply objects .ne right left = apply objects .ne left right) := by
  have hlt : (order right left == some .gt) = (order left right == some .lt) :=
    order_beq_swap left right .lt
  have heq : (order right left == some .eq) = (order left right == some .eq) :=
    order_beq_swap left right .eq
  have hgt : (order right left == some .lt) = (order left right == some .gt) :=
    order_beq_swap left right .gt
  refine ⟨order_swap left right, ?_, ?_, ?_, ?_, fun hleft hright => ?_⟩
  · rw [apply, apply, hlt]
  · rw [apply, apply, hgt]
  · rw [apply, apply, hlt, heq]
  · rw [apply, apply, hgt, heq]
  · have hcomm : looseEq objects right left = looseEq objects left right :=
      looseEq_comm hleft hright
    exact ⟨hcomm, by rw [apply, apply, hcomm], by rw [apply, apply, hcomm]⟩

def alike : Value × Value :=
  (list [int 1, record [("a", str "x"), ("b", null)]],
    list [str "1", record [("b", bool false), ("a", str "x")]])

theorem comparison_turns_around_alike : alike.1.WellNamed ∧ alike.2.WellNamed ∧
      looseEq .empty alike.2 alike.1 = looseEq .empty alike.1 alike.2 ∧
      looseEq .empty alike.1 alike.2 = true := by
  have hleft : alike.1.WellNamed := by
    simp [alike, WellNamed, WellNamedItems, WellNamedFields, Table.Distinct, Table.keys]
  have hright : alike.2.WellNamed := by
    simp [alike, WellNamed, WellNamedItems, WellNamedFields, Table.Distinct, Table.keys]
  obtain ⟨-, -, -, -, -, hequal⟩ := comparison_turns_around .empty alike.1 alike.2
  exact ⟨hleft, hright, (hequal hleft hright).1, by decide +kernel⟩

end Symmetry

section Agreement

variable {objects : Objects}

theorem orderStrs_self (s : String) : orderStrs s s = some .eq := by
  unfold orderStrs
  cases hs : Number.ofText? s with
  | none => exact congrArg some (Std.ReflOrd.compare_self : compare s s = .eq)
  | some n => exact Number.order_self_of_ofText? hs

mutual

theorem looseEq_of_strictEq : ∀ left right : Value, strictEq objects left right = true →
    looseEq objects left right = true
  | null, null, _ => rfl
  | bool a, bool b, h => by
    obtain rfl : a = b := beq_iff_eq.1 h
    cases a <;> rfl
  | int m, int n, h => by
    have hequal : order (int m) (int n) = some .eq :=
      congrArg some (Number.orderInts_eq_eq_iff.2 (beq_iff_eq.1 h))
    exact beq_iff_eq.2 hequal
  | float x, float y, h => by
    have hequal : order (float x) (float y) = some .eq := Number.orderFloats_eq_some_eq_iff.2 h
    exact beq_iff_eq.2 hequal
  | str s, str t, h => by
    obtain rfl : s = t := beq_iff_eq.1 h
    exact beq_iff_eq.2 (orderStrs_self s)
  | list xs, list ys, h => looseEqItems_of_strictEqItems xs ys h
  | record xs, record ys, h => by
    obtain ⟨hlength, hfields⟩ := Bool.and_eq_true_iff.1 h
    exact Bool.and_eq_true_iff.2 ⟨hlength, looseEqFields_of_strictEqFields xs ys hfields⟩
  | object _, object _, h => h

theorem looseEqItems_of_strictEqItems : ∀ xs ys : List Value, strictEqItems objects xs ys = true →
    looseEqItems objects xs ys = true
  | [], [], _ => rfl
  | x :: xs, y :: ys, h => by
    obtain ⟨hfirst, hrest⟩ := Bool.and_eq_true_iff.1 h
    exact Bool.and_eq_true_iff.2
      ⟨looseEq_of_strictEq x y hfirst, looseEqItems_of_strictEqItems xs ys hrest⟩

theorem looseEqFields_of_strictEqFields : ∀ xs ys : List (String × Value),
    strictEqFields objects xs ys = true → looseEqFields objects xs ys = true
  | [], _, _ => rfl
  | (name, x) :: xs, ys, h => by
    obtain ⟨hfirst, hrest⟩ := Bool.and_eq_true_iff.1 h
    refine Bool.and_eq_true_iff.2 ⟨?_, looseEqFields_of_strictEqFields xs ys hrest⟩
    cases hfound : Table.find? name ys with
    | none => simp [hfound] at hfirst
    | some y =>
      rw [hfound] at hfirst
      exact looseEq_of_strictEq x y hfirst

end

theorem order_list_eq_some_eq_iff {xs ys : List Value} :
    order (list xs) (list ys) = some .eq ↔ xs.length = ys.length ∧ orderItems xs ys = some .eq := by
  rw [order]
  split
  · next h => exact ⟨fun hitems => ⟨h, hitems⟩, And.right⟩
  · next h => simp [h]

theorem orderItems_cons_eq_some_eq_iff {x y : Value} {xs ys : List Value} :
    orderItems (x :: xs) (y :: ys) = some .eq ↔
      order x y = some .eq ∧ orderItems xs ys = some .eq := by
  rw [orderItems]
  split
  · next h => simp [h]
  · next h => exact ⟨fun heq => absurd heq h, fun heq => absurd heq.1 h⟩

mutual

theorem looseEq_of_order : ∀ left right : Value, order left right = some .eq →
    looseEq objects left right = true
  | list xs, right, h => by
    cases right with
    | list ys =>
      obtain ⟨hlength, hitems⟩ := order_list_eq_some_eq_iff.1 h
      exact looseEqItems_of_orderItems xs ys hlength hitems
    | _ => exact beq_iff_eq.2 h
  | record _, right, h | object _, right, h => by
    cases right with
    | record | object => cases h
    | _ => exact beq_iff_eq.2 h
  | null, right, h | bool _, right, h | int _, right, h | float _, right, h | str _, right, h => by
    rw [looseEq_of_not_sameShape id]
    exact beq_iff_eq.2 h

theorem looseEqItems_of_orderItems : ∀ xs ys : List Value, xs.length = ys.length →
    orderItems xs ys = some .eq → looseEqItems objects xs ys = true
  | [], [], _, _ => rfl
  | x :: xs, y :: ys, hlength, h => by
    obtain ⟨hfirst, hrest⟩ := orderItems_cons_eq_some_eq_iff.1 h
    exact Bool.and_eq_true_iff.2 ⟨looseEq_of_order x y hfirst,
      looseEqItems_of_orderItems xs ys (Nat.succ.inj hlength) hrest⟩

end

mutual

def Plain : Value → Prop
  | list items => PlainItems items
  | record _ | object _ => False
  | _ => True

def PlainItems : List Value → Prop
  | [] => True
  | item :: rest => Plain item ∧ PlainItems rest

end

mutual

theorem order_of_looseEq : ∀ left right : Value, left.Plain ∨ right.Plain →
    looseEq objects left right = true → order left right = some .eq
  | list xs, right, hplain, h => by
    cases right with
    | list ys => exact order_list_eq_some_eq_iff.2 (orderItems_of_looseEqItems xs ys hplain h)
    | _ => exact beq_iff_eq.1 h
  | record _, right, hplain, h | object _, right, hplain, h => by
    cases right with
    | record | object => exact (hplain.elim id id).elim
    | _ => exact beq_iff_eq.1 h
  | null, _, _, h | bool _, _, _, h | int _, _, _, h | float _, _, _, h | str _, _, _, h => by
    rw [looseEq_of_not_sameShape id] at h
    exact beq_iff_eq.1 h

theorem orderItems_of_looseEqItems : ∀ xs ys : List Value, PlainItems xs ∨ PlainItems ys →
    looseEqItems objects xs ys = true → xs.length = ys.length ∧ orderItems xs ys = some .eq
  | [], [], _, _ => ⟨rfl, rfl⟩
  | x :: xs, y :: ys, hplain, h => by
    obtain ⟨hfirst, hrest⟩ := Bool.and_eq_true_iff.1 h
    have hx : order x y = some .eq := order_of_looseEq x y (hplain.imp And.left And.left) hfirst
    obtain ⟨hlength, hitems⟩ :=
      orderItems_of_looseEqItems xs ys (hplain.imp And.right And.right) hrest
    exact ⟨congrArg (· + 1) hlength, orderItems_cons_eq_some_eq_iff.2 ⟨hx, hitems⟩⟩

end

def Holds (objects : Objects) (op : Operator) (left right : Value) : Prop :=
  apply objects op left right = .ok (bool true)

theorem holds_lt_iff {left right : Value} :
    Holds objects .lt left right ↔ order left right = some .lt := by
  simp [Holds, apply]

theorem holds_gt_iff {left right : Value} :
    Holds objects .gt left right ↔ order left right = some .gt := by
  simp [Holds, apply]

theorem holds_le_iff {left right : Value} : Holds objects .le left right ↔
    order left right = some .lt ∨ order left right = some .eq := by
  simp [Holds, apply]

theorem holds_eq_iff {left right : Value} :
    Holds objects .eq left right ↔ looseEq objects left right = true := by
  simp [Holds, apply]

/-- What is strictly equal or equal in the order is loosely equal. Where no records or objects meet,
loose equality is the equality of the order. -/
theorem equalities_fit_the_order (objects : Objects) (left right : Value) :
    (strictEq objects left right = true → looseEq objects left right = true) ∧
      (order left right = some .eq → looseEq objects left right = true) ∧
      (left.Plain ∨ right.Plain →
        (looseEq objects left right = true → order left right = some .eq) ∧
          (Holds objects .le left right ↔
            Holds objects .lt left right ∨ Holds objects .eq left right) ∧
          ¬ (Holds objects .lt left right ∧ Holds objects .eq left right) ∧
          ¬ (Holds objects .eq left right ∧ Holds objects .gt left right) ∧
          ¬ (Holds objects .lt left right ∧ Holds objects .gt left right)) := by
  refine ⟨looseEq_of_strictEq left right, looseEq_of_order left right, fun hplain => ?_⟩
  have hequal : looseEq objects left right = true ↔ order left right = some .eq :=
    ⟨order_of_looseEq left right hplain, looseEq_of_order left right⟩
  rw [holds_le_iff, holds_lt_iff, holds_eq_iff, holds_gt_iff, hequal]
  refine ⟨id, Iff.rfl, ?_, ?_, ?_⟩ <;>
  · rintro ⟨hone, hother⟩
    rw [hone] at hother
    cases hother

def plainPair : Value × Value := (list [int 1, list [null]], list [str " 1", list [bool false]])

theorem equalities_fit_the_order_plainPair :
    plainPair.1.Plain ∧ looseEq .empty plainPair.1 plainPair.2 = true ∧
      strictEq .empty plainPair.1 plainPair.2 = false ∧ order plainPair.1 plainPair.2 = some .eq ∧
      Holds .empty .le plainPair.1 plainPair.2 := by
  have hplain : plainPair.1.Plain := by simp [plainPair, Plain, PlainItems]
  have hloose : looseEq .empty plainPair.1 plainPair.2 = true := by decide +kernel
  obtain ⟨-, -, hfit⟩ := equalities_fit_the_order .empty plainPair.1 plainPair.2
  obtain ⟨horder, hle, -⟩ := hfit (.inl hplain)
  exact ⟨hplain, hloose, by decide +kernel, horder hloose, hle.2 (.inr (holds_eq_iff.2 hloose))⟩

end Agreement

end Value

end DurableScript
