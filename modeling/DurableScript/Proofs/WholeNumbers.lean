import DurableScript.Proofs.NumberText
import DurableScript.Value.Arithmetic

namespace DurableScript

def InRange (n : Int) : Prop := -2 ^ 63 ≤ n ∧ n < 2 ^ 63

theorem inRange_toInt (n : Int64) : InRange n.toInt := ⟨n.le_toInt, n.toInt_lt⟩

theorem InRange.toInt_ofInt {n : Int} (h : InRange n) : (Int64.ofInt n).toInt = n :=
  Int64.toInt_ofInt_of_le h.1 h.2

inductive Numeral.Spells : List Char → Int → Prop where
  | bare {digits : List Char} : digits ≠ [] → digits.all Decimal.isDigit = true →
      Spells digits (Nat.ofDigitChars 10 digits 0)
  | plus {digits : List Char} : digits ≠ [] → digits.all Decimal.isDigit = true →
      Spells ('+' :: digits) (Nat.ofDigitChars 10 digits 0)
  | minus {digits : List Char} : digits ≠ [] → digits.all Decimal.isDigit = true →
      Spells ('-' :: digits) (-Nat.ofDigitChars 10 digits 0)

namespace Numeral

variable {text : List Char} {n : Int}

theorem Spells.read?_eq (h : Spells text n) (hrange : InRange n) :
    read? text = some (Int64.ofInt n) := by
  unfold InRange at hrange
  cases h with
  | bare hne hdigits =>
    have hread : readDigits (2 ^ 63 - 1) .tooLarge 0 text = .ok _ :=
      readDigits_eq hdigits (by omega)
    obtain ⟨c, rest, rfl⟩ := List.exists_cons_of_ne_nil hne
    have hc : Decimal.isDigit c = true := List.all_eq_true.1 hdigits c List.mem_cons_self
    rw [read?, read_digits hc, hread, Int64.ofInt_eq_ofNat]
    rfl
  | @plus digits hne hdigits =>
    have hread : readDigits (2 ^ 63 - 1) .tooLarge 0 digits = .ok _ :=
      readDigits_eq hdigits (by omega)
    obtain ⟨c, rest, rfl⟩ := List.exists_cons_of_ne_nil hne
    have hplus : read ('+' :: c :: rest) =
      (readDigits (2 ^ 63 - 1) .tooLarge 0 (c :: rest)).map Int64.ofNat := rfl
    rw [read?, hplus, hread, Int64.ofInt_eq_ofNat]
    rfl
  | @minus digits hne hdigits =>
    have hread : readDigits (2 ^ 63) .tooSmall 0 digits = .ok _ :=
      readDigits_eq hdigits (by omega)
    obtain ⟨c, rest, rfl⟩ := List.exists_cons_of_ne_nil hne
    rw [read?, read_minus, hread]
    rfl

theorem isBlank_of_isDigit {c : Char} (h : Decimal.isDigit c = true) : Text.isBlank c = false := by
  simp only [Decimal.isDigit, Bool.and_eq_true, decide_eq_true_eq, Char.le_def, UInt32.le_iff_toNat_le]
    at h
  have hlow : 48 ≤ c.toNat := h.1
  have hhigh : c.toNat ≤ 57 := h.2
  simp [Text.isBlank, Text.blankRanges]
  omega

theorem Spells.not_blank (h : Spells text n) :
    (∃ c rest, text = c :: rest ∧ Text.isBlank c = false) ∧
      ∃ c rest, text.reverse = c :: rest ∧ Text.isBlank c = false := by
  have hlast {digits : List Char} (hne : digits ≠ []) (hdigits : digits.all Decimal.isDigit = true)
      (sign : List Char) :
      ∃ c rest, (sign ++ digits).reverse = c :: rest ∧ Text.isBlank c = false := by
    refine ⟨digits.getLast hne, digits.dropLast.reverse ++ sign.reverse, ?_,
      isBlank_of_isDigit (List.all_eq_true.1 hdigits _ (List.getLast_mem hne))⟩
    conv_lhs => rw [← List.dropLast_append_getLast hne]
    simp
  cases h with
  | @bare digits hne hdigits =>
    refine ⟨?_, hlast hne hdigits []⟩
    obtain ⟨c, rest, rfl⟩ := List.exists_cons_of_ne_nil hne
    exact ⟨c, rest, rfl, isBlank_of_isDigit (List.all_eq_true.1 hdigits c List.mem_cons_self)⟩
  | @plus digits hne hdigits => exact ⟨⟨_, _, rfl, by decide⟩, hlast hne hdigits ['+']⟩
  | @minus digits hne hdigits => exact ⟨⟨_, _, rfl, by decide⟩, hlast hne hdigits ['-']⟩

end Numeral

theorem Text.dropWhile_blanks {blanks : List Char} (h : isAllBlank blanks = true) {c : Char}
    (hc : isBlank c = false) (rest : List Char) :
    (blanks ++ c :: rest).dropWhile isBlank = c :: rest := by
  rw [List.dropWhile_append_of_pos (List.all_eq_true.1 h), List.dropWhile_cons_of_neg (by simp [hc])]

theorem Numeral.Spells.trim_eq {text : List Char} {n : Int} (h : Spells text n)
    {before after : List Char} (hbefore : Text.isAllBlank before = true)
    (hafter : Text.isAllBlank after = true) : Text.trim (before ++ text ++ after) = text := by
  obtain ⟨⟨c, rest, htext, hc⟩, ⟨d, rest', htext', hd⟩⟩ := h.not_blank
  have hreverse : Text.isAllBlank after.reverse = true := by simpa [Text.isAllBlank] using hafter
  have hdrop := Text.dropWhile_blanks hbefore hc (rest ++ after)
  rw [← List.cons_append, ← htext, ← List.append_assoc] at hdrop
  rw [Text.trim, hdrop, List.reverse_append, htext', Text.dropWhile_blanks hreverse hd, ← htext',
    List.reverse_reverse]

namespace Value

inductive Counts : Value → Int → Prop where
  | null : Counts null 0
  | bool (b : Bool) : Counts (bool b) (if b then 1 else 0)
  | int (n : Int64) : Counts (int n) n.toInt
  | text {s : String} {before text after : List Char} {n : Int} :
      s.toList = before ++ text ++ after → Text.isAllBlank before = true →
      Text.isAllBlank after = true → Numeral.Spells text n → InRange n → Counts (str s) n

variable {left right : Value} {x y : Int}

theorem Counts.inRange (h : left.Counts x) : InRange x := by
  cases h with
  | null => exact ⟨by decide, by decide⟩
  | bool b => cases b <;> exact ⟨by decide, by decide⟩
  | int n => exact inRange_toInt n
  | text _ _ _ _ hrange => exact hrange

theorem Counts.number_eq (h : left.Counts x) (op : Operator) :
    left.number op = .ok (.int (Int64.ofInt x)) := by
  cases h with
  | null => rfl
  | bool b => cases b <;> rfl
  | int n => rw [number, Int64.ofInt_toInt]
  | text hs hbefore hafter hspells hrange =>
    have hread := hspells.read?_eq hrange
    rw [← hspells.trim_eq hbefore hafter, ← hs] at hread
    rw [number, Number.ofText?, hread]

theorem fit?_eq_some_iff {n : Int} {m : Int64} : fit? n = some m ↔ m.toInt = n := by
  unfold fit?
  split
  · next h =>
    refine ⟨fun hm => ?_, fun hm => ?_⟩
    · rw [← Option.some.inj hm, InRange.toInt_ofInt h]
    · rw [← hm, Int64.ofInt_toInt]
  · next h => exact iff_of_false nofun fun hm => h (hm ▸ inRange_toInt m)

def Operation.IsExact : Operation → Int → Int → Int → Prop
  | .add, x, y, n => n = x + y
  | .sub, x, y, n => n = x - y
  | .mul, x, y, n => n = x * y
  | .div, x, y, n => y ≠ 0 ∧ n * y = x

theorem isExact_iff {operation : Operation} {left right n : Int64}
    (h : ¬ (operation = .div ∧ right.toInt = 0)) :
    operation.whole? left right = some n ↔
      operation.IsExact left.toInt right.toInt n.toInt := by
  cases operation with
  | add | sub | mul => exact fit?_eq_some_iff
  | div =>
    have hne : right.toInt ≠ 0 := fun hzero => h ⟨rfl, hzero⟩
    simp only [Operation.whole?, Operation.IsExact]
    split
    · next hmod =>
      have hdvd := Int.dvd_of_tmod_eq_zero hmod
      rw [fit?_eq_some_iff, and_iff_right hne]
      refine ⟨fun hn => ?_, fun hn => ?_⟩
      · rw [hn, Int.tdiv_mul_cancel hdvd]
      · rw [← hn, Int.mul_tdiv_cancel _ hne]
    · next hmod =>
      refine iff_of_false nofun fun hn => hmod ?_
      rw [← hn.2, Int.mul_tmod_left]

/-- What an operation on whole numbers comes to: a whole number if that is exact, and a double
otherwise. -/
structure Operation.Gives (operation : Operation) (x y : Int) (result : Except RunFault Value) :
    Prop where
  fails : result = .error .divisionByZero ↔ operation = .div ∧ y = 0
  whole : ∀ n : Int64, result = .ok (int n) ↔ operation.IsExact x y n.toInt
  inexact : ¬ (operation = .div ∧ y = 0) → (∀ n, operation.IsExact x y n → ¬ InRange n) →
    result = .ok (float (operation.inexact (Float.ofInt x) (Float.ofInt y)))

theorem isZero_ofInt (h : InRange x) : (Number.int (Int64.ofInt x)).isZero = true ↔ x = 0 := by
  rw [Number.isZero, beq_iff_eq, ← Int64.toInt_inj, h.toInt_ofInt]
  rfl

theorem gives_calculate (hleft : left.Counts x) (hright : right.Counts y) (operation : Operation) :
    operation.Gives x y (calculate operation left right) := by
  have hx := hleft.inRange.toInt_ofInt
  have hy := hright.inRange.toInt_ofInt
  have hcalculate : calculate operation left right = if operation = .div ∧ y = 0 then
      .error .divisionByZero else .ok ((operation.whole? (Int64.ofInt x) (Int64.ofInt y)).elim
        (float (operation.inexact (Float.ofInt x) (Float.ofInt y))) int) := by
    rw [calculate, hleft.number_eq, hright.number_eq]
    simp only [bind, Except.bind, isZero_ofInt hright.inRange, hx, hy, floatOfInt64]
    cases operation.whole? (Int64.ofInt x) (Int64.ofInt y) <;> rfl
  rw [hcalculate]
  by_cases hzero : operation = .div ∧ y = 0
  · rw [if_pos hzero]
    refine ⟨iff_of_true rfl hzero, fun n => iff_of_false nofun fun hn => ?_, fun h => absurd hzero h⟩
    obtain ⟨rfl, rfl⟩ := hzero
    exact hn.1 rfl
  · have hexact := @isExact_iff operation (Int64.ofInt x) (Int64.ofInt y)
    rw [hx, hy] at hexact
    rw [if_neg hzero]
    cases hn : operation.whole? (Int64.ofInt x) (Int64.ofInt y) with
    | some n =>
      refine ⟨iff_of_false nofun hzero, fun m => ?_, fun _ hout => ?_⟩
      · rw [← hexact hzero, hn]
        simp
      · exact absurd (inRange_toInt n) (hout _ ((hexact hzero).1 hn))
    | none =>
      refine ⟨iff_of_false nofun hzero, fun m => iff_of_false nofun fun hm => ?_, fun _ _ => rfl⟩
      cases hn.symm.trans ((hexact hzero).2 hm)

theorem remainder_of_counts (hleft : left.Counts x) (hright : right.Counts y) :
    remainder left right =
      if y = 0 then .error .divisionByZero else .ok (int (Int64.ofInt (Int.tmod x y))) := by
  have hy := isZero_ofInt hright.inRange
  rw [Number.isZero, beq_iff_eq] at hy
  rw [remainder, hleft.number_eq, hright.number_eq]
  simp only [bind, Except.bind, Number.toInt64, hy, hleft.inRange.toInt_ofInt,
    hright.inRange.toInt_ofInt]

/-- The remainder is smaller than the divisor and has the sign of the dividend. -/
structure IsRemainder (x y n : Int) : Prop where
  dvd : y ∣ x - n
  small : n.natAbs < y.natAbs
  nonneg : 0 ≤ x → 0 ≤ n
  nonpos : x ≤ 0 → n ≤ 0

theorem isRemainder_tmod (x : Int) {y : Int} (h : y ≠ 0) : IsRemainder x y (x.tmod y) where
  dvd := Int.dvd_self_sub_tmod
  small := by
    rw [Int.natAbs_tmod]
    exact Nat.mod_lt _ (Int.natAbs_pos.2 h)
  nonneg := Int.tmod_nonneg y
  nonpos hx := by
    have hneg := Int.tmod_nonneg y (Int.neg_nonneg_of_nonpos hx)
    rw [Int.neg_tmod] at hneg
    omega

end Value

/-- Nothing, truth values, whole numbers and, unless they are added, texts that spell one: a whole
result is the exact one, and a result that is not whole or too large for 64 bits is a double. Only a
division by zero fails. -/
theorem whole_arithmetic_is_exact (objects : Objects) {left right : Value} {x y : Int}
    (hleft : left.Counts x) (hright : right.Counts y) :
    (∀ operation : Value.Operation,
      (operation = .add → left.isStr = false ∧ right.isStr = false) →
      operation.Gives x y (Value.apply objects operation.operator left right)) ∧
    (Value.apply objects .mod left right = .error .divisionByZero ↔ y = 0) ∧
    (y ≠ 0 → ∃ n : Int64, Value.apply objects .mod left right = .ok (.int n) ∧
      Value.IsRemainder x y n.toInt) := by
  have hmod : Value.apply objects .mod left right = _ := Value.remainder_of_counts hleft hright
  refine ⟨fun operation hplain => ?_, ?_, fun hne => ?_⟩
  · have hgives := Value.gives_calculate hleft hright operation
    cases operation with
    | add =>
      obtain ⟨hl, hr⟩ := hplain rfl
      rw [Value.Operation.operator, Value.apply, hl, hr]
      exact hgives
    | sub | mul | div => exact hgives
  · rw [hmod]
    split
    · next hzero => exact iff_of_true rfl hzero
    · next hne => exact iff_of_false nofun hne
  · refine ⟨_, by rw [hmod, if_neg hne], ?_⟩
    have hremainder := Value.isRemainder_tmod x hne
    have hrange : InRange (x.tmod y) := by
      have hsmall := hremainder.small
      have hy := hright.inRange
      unfold InRange at hy ⊢
      omega
    rw [hrange.toInt_ofInt]
    exact hremainder

theorem whole_arithmetic_is_exact_brim :
    (Value.str " -9223372036854775808\n").Counts (-2 ^ 63) ∧ (Value.int (-1)).Counts (-1) ∧
      (∃ product, Value.apply .empty .mul (.str " -9223372036854775808\n") (.int (-1)) =
        .ok (.float product)) ∧
      (∃ quotient, Value.apply .empty .div (.str " -9223372036854775808\n") (.int (-1)) =
        .ok (.float quotient)) ∧
      Value.apply .empty .mod (.str " -9223372036854775808\n") (.int (-1)) = .ok (.int 0) := by
  have hleft : (Value.str " -9223372036854775808\n").Counts (-2 ^ 63) :=
    .text (show _ = [' '] ++ '-' :: "9223372036854775808".toList ++ ['\n'] by decide) rfl rfl
      (.minus (by decide) (by decide)) ⟨by decide, by decide⟩
  have hright : (Value.int (-1)).Counts (-1) := .int (-1)
  obtain ⟨hgives, -, hmod⟩ := whole_arithmetic_is_exact .empty hleft hright
  refine ⟨hleft, hright, ⟨_, (hgives .mul nofun).inexact nofun fun n hn hrange => ?_⟩,
    ⟨_, (hgives .div nofun).inexact (by decide) fun n hn hrange => ?_⟩, ?_⟩
  · exact absurd (hn ▸ hrange) (by unfold InRange; decide)
  · have hmul := hn.2
    unfold InRange at hrange
    omega
  · obtain ⟨n, happly, hremainder⟩ := hmod (by decide)
    have hsmall := hremainder.small
    have hzero : n.toInt = 0 := by
      rw [show (-1 : Int).natAbs = 1 from rfl] at hsmall
      omega
    rw [happly, Int64.toInt_inj.1 (hzero.trans (by decide : (0 : Int) = (0 : Int64).toInt))]

end DurableScript
