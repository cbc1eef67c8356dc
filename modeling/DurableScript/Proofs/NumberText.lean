import DurableScript.Decimal.Style
import DurableScript.Proofs.ShortestDecimal
import DurableScript.Value.Text
import Mathlib.Data.List.TakeWhile

namespace DurableScript

namespace Decimal

theorem isDigit_of_mem_toDigits {n : Nat} {c : Char} (h : c ∈ Nat.toDigits 10 n) :
    isDigit c = true := by
  have := Nat.isDigit_of_mem_toDigits (by decide) (by decide) h
  simpa [Char.isDigit, isDigit, Char.le_def] using this

theorem all_isDigit_toDigits (n : Nat) : (Nat.toDigits 10 n).all isDigit = true :=
  List.all_eq_true.mpr fun _ => isDigit_of_mem_toDigits

theorem digitsValue_eq (digits : List Char) : digitsValue digits = Nat.ofDigitChars 10 digits 0 := by
  unfold digitsValue Nat.ofDigitChars
  simp only [Nat.mul_comm 10]

@[simp] theorem digitsValue_toDigits (n : Nat) : digitsValue (Nat.toDigits 10 n) = n := by
  rw [digitsValue_eq, Nat.ofDigitChars_ten_toDigits]

@[simp] theorem digitsValue_append_zeros (digits : List Char) (n : Nat) :
    digitsValue (digits ++ DecimalStyle.zeros n) = digitsValue digits * 10 ^ n := by
  simp only [digitsValue_eq, Nat.ofDigitChars_append, DecimalStyle.zeros,
    Nat.ofDigitChars_replicate_zero, Nat.mul_comm]

@[simp] theorem digitsValue_zeros_append (n : Nat) (digits : List Char) :
    digitsValue (DecimalStyle.zeros n ++ digits) = digitsValue digits := by
  simp only [digitsValue_eq, Nat.ofDigitChars_append, DecimalStyle.zeros,
    Nat.ofDigitChars_replicate_zero, Nat.mul_zero]

theorem all_isDigit_zeros (n : Nat) : (DecimalStyle.zeros n).all isDigit = true := by
  unfold DecimalStyle.zeros
  rw [List.all_replicate]
  split <;> rfl

end Decimal

namespace Numeral

theorem digit?_eq {c : Char} (h : Decimal.isDigit c = true) :
    digit? c = some (c.toNat - '0'.toNat) := by
  rw [Decimal.isDigit, Bool.and_eq_true, decide_eq_true_eq, decide_eq_true_eq] at h
  exact if_pos h

theorem readDigits_eq {limit : Nat} {overflow : Fault} {start : Nat} {digits : List Char}
    (h : digits.all Decimal.isDigit = true) (hlimit : Nat.ofDigitChars 10 digits start ≤ limit) :
    readDigits limit overflow start digits = .ok (Nat.ofDigitChars 10 digits start) := by
  induction digits generalizing start with
  | nil => rfl
  | cons c rest ih =>
    rw [List.all_cons, Bool.and_eq_true] at h
    rw [Nat.ofDigitChars_cons, Nat.mul_comm] at hlimit ⊢
    have hnext : start * 10 + (c.toNat - '0'.toNat) ≤ limit := by
      rw [Nat.ofDigitChars_eq_ofDigitChars_zero] at hlimit
      have := Nat.one_le_pow rest.length 10 (by decide)
      nlinarith
    unfold readDigits
    rw [digit?_eq h.1]
    simp only [if_neg (Nat.not_lt.mpr hnext)]
    exact ih h.2 hlimit

theorem readDigits_toDigits {limit n : Nat} (overflow : Fault) (h : n ≤ limit) :
    readDigits limit overflow 0 (Nat.toDigits 10 n) = .ok n := by
  rw [readDigits_eq (Decimal.all_isDigit_toDigits n)] <;> simp [h]

theorem exists_toDigits_cons (n : Nat) :
    ∃ c rest, Nat.toDigits 10 n = c :: rest ∧ Decimal.isDigit c = true := by
  cases h : Nat.toDigits 10 n with
  | nil => exact absurd h Nat.toDigits_ne_nil
  | cons c rest => exact ⟨c, rest, rfl, Decimal.isDigit_of_mem_toDigits (h ▸ List.mem_cons_self)⟩

theorem read_digits {c : Char} {rest : List Char} (h : Decimal.isDigit c = true) :
    read (c :: rest) = (readDigits (2 ^ 63 - 1) .tooLarge 0 (c :: rest)).map Int64.ofNat := by
  have hplus : c ≠ '+' := fun hc => absurd (hc ▸ h) (by decide)
  have hminus : c ≠ '-' := fun hc => absurd (hc ▸ h) (by decide)
  unfold read
  split <;> simp_all

theorem read_minus {c : Char} {rest : List Char} : read ('-' :: c :: rest) =
      (readDigits (2 ^ 63) .tooSmall 0 (c :: rest)).map fun n => Int64.ofInt (-n) := rfl

theorem read_intText (n : Int64) : read (Value.intText n).toList = .ok n := by
  have hlo := n.le_toInt
  have hhi := n.toInt_lt
  unfold Value.intText
  cases hn : n.toInt with
  | ofNat m =>
    have htext : (toString (Int.ofNat m)).toList = Nat.toDigits 10 m := by
      rw [show toString (Int.ofNat m) = m.repr from rfl, Nat.toList_repr]
    have hm : Int.ofNat m < 2 ^ 63 := hn ▸ hhi
    rw [Int.ofNat_eq_natCast] at hm
    obtain ⟨c, rest, hdigits, hc⟩ := exists_toDigits_cons m
    rw [htext, hdigits, read_digits hc, ← hdigits, readDigits_toDigits _ (by omega)]
    show Except.ok (Int64.ofNat m) = _
    rw [← Int64.ofInt_eq_ofNat, ← Int.ofNat_eq_natCast, ← hn, Int64.ofInt_toInt]
  | negSucc m =>
    have htext : (toString (Int.negSucc m)).toList = '-' :: Nat.toDigits 10 (m + 1) := by
      rw [show toString (Int.negSucc m) = "-" ++ (m + 1).repr from rfl, String.toList_append,
        Nat.toList_repr]
      rfl
    obtain ⟨c, rest, hdigits, hc⟩ := exists_toDigits_cons (m + 1)
    rw [htext, hdigits, read_minus, ← hdigits, readDigits_toDigits _ (by omega)]
    show Except.ok (Int64.ofInt (-(m + 1 : Nat))) = _
    rw [show -((m + 1 : Nat) : Int) = n.toInt by omega, Int64.ofInt_toInt]

end Numeral

namespace Decimal

open Float.Model Float.Model.UnpackedFloat Binary64

theorem readUnsigned_of_digit {text : List Char} (h : text.head?.any isDigit = true) :
    readUnsigned text =
      let whole := text.takeWhile isDigit
      let (fraction, rest) :=
        match text.dropWhile isDigit with
        | '.' :: tail => (tail.takeWhile isDigit, tail.dropWhile isDigit)
        | tail => ([], tail)
      if whole.isEmpty && fraction.isEmpty then none
      else
        (readExponent rest).map fun exponent =>
          nearest (digitsValue (whole ++ fraction)) (exponent - Int.ofNat fraction.length) := by
  have hword : ∀ word : String, word.toList.head?.any (fun c => !isDigit c) = true →
      String.ofList (text.map lower) ≠ word := by
    rintro word hword rfl
    rw [String.toList_ofList] at hword
    cases text with
    | nil => contradiction
    | cons c rest =>
      have hlower : lower c = c := by
        simp only [List.head?_cons, Option.any_some, isDigit, Bool.and_eq_true, decide_eq_true_eq,
          Char.le_def, UInt32.le_iff_toNat_le] at h
        refine if_neg fun hupper => ?_
        have hA : 'A'.val.toNat ≤ c.val.toNat := hupper.1
        have h9 : c.val.toNat ≤ '9'.val.toNat := h.2
        exact absurd (hA.trans h9) (by decide)
      simp only [List.map_cons, List.head?_cons, Option.any_some, hlower, Bool.not_eq_true'] at h hword
      rw [h] at hword
      contradiction
  have hinf := hword "inf" (by decide)
  have hinfinity := hword "infinity" (by decide)
  have hnan := hword "nan" (by decide)
  exact (if_neg (not_or.2 ⟨hinf, hinfinity⟩)).trans (if_neg hnan)

theorem readUnsigned_whole (digits : List Char) (hne : digits ≠ [])
    (h : digits.all isDigit = true) :
    readUnsigned digits = some (nearest (digitsValue digits) 0) := by
  have htake : digits.takeWhile isDigit = digits := List.takeWhile_eq_self_iff.mpr (by simpa using h)
  have hdrop : digits.dropWhile isDigit = [] := List.dropWhile_eq_nil_iff.mpr (by simpa using h)
  have hhead : digits.head?.any isDigit = true := by
    cases digits with
    | nil => contradiction
    | cons c rest =>
      rw [List.all_cons, Bool.and_eq_true] at h
      exact h.1
  rw [readUnsigned_of_digit hhead]
  simp [htake, hdrop, hne, readExponent]

theorem readUnsigned_fraction (whole fraction : List Char) (hne : whole ≠ [])
    (hwhole : whole.all isDigit = true) (hfraction : fraction.all isDigit = true) :
    readUnsigned (whole ++ '.' :: fraction) =
      some (nearest (digitsValue (whole ++ fraction)) (-fraction.length)) := by
  have hpoint : isDigit '.' = false := by decide
  have htake : (whole ++ '.' :: fraction).takeWhile isDigit = whole := by
    rw [List.takeWhile_append_of_pos (by simpa using hwhole)]
    simp [hpoint]
  have hdrop : (whole ++ '.' :: fraction).dropWhile isDigit = '.' :: fraction := by
    rw [List.dropWhile_append_of_pos (by simpa using hwhole)]
    simp [hpoint]
  have htake' : fraction.takeWhile isDigit = fraction :=
    List.takeWhile_eq_self_iff.mpr (by simpa using hfraction)
  have hdrop' : fraction.dropWhile isDigit = [] :=
    List.dropWhile_eq_nil_iff.mpr (by simpa using hfraction)
  have hhead : (whole ++ '.' :: fraction).head?.any isDigit = true := by
    cases whole with
    | nil => contradiction
    | cons c rest =>
      rw [List.all_cons, Bool.and_eq_true] at hwhole
      exact hwhole.1
  rw [readUnsigned_of_digit hhead]
  simp [htake, hdrop, htake', hdrop', hne, readExponent]

theorem readUnsigned_placePoint (s : ShortDecimal) (hpos : 0 < s.digits) :
    ∃ (n : Nat) (k : Int), 0 < n ∧ (n : ℚ) * 10 ^ k = s.value ∧
      readUnsigned (DecimalStyle.plain.placePoint (Nat.toDigits 10 s.digits)
        (s.exponent + (Nat.toDigits 10 s.digits).length)) = some (nearest n k) := by
  have hlength : 0 < (Nat.toDigits 10 s.digits).length := Nat.length_toDigits_pos
  have hall := all_isDigit_toDigits s.digits
  have hvalue := digitsValue_toDigits s.digits
  generalize Nat.toDigits 10 s.digits = digits at *
  unfold DecimalStyle.placePoint
  split
  case isTrue hbefore =>
    refine ⟨s.digits, s.exponent, hpos, rfl, ?_⟩
    have hread := readUnsigned_fraction ['0']
      (DecimalStyle.zeros (-(s.exponent + digits.length)).toNat ++ digits)
      (by simp) (by decide) (by rw [List.all_append, all_isDigit_zeros, hall]; rfl)
    have hzero : digitsValue (['0'] ++ (DecimalStyle.zeros (-(s.exponent + digits.length)).toNat ++
        digits)) = s.digits := by
      rw [← List.append_assoc]
      exact (digitsValue_zeros_append (_ + 1) digits).trans hvalue
    rw [hzero, List.length_append, DecimalStyle.zeros, List.length_replicate] at hread
    exact hread.trans (by congr 2; omega)
  case isFalse hafter =>
    split
    case isTrue hwhole =>
      refine ⟨s.digits * 10 ^ s.exponent.toNat, 0, by positivity, ?_, ?_⟩
      · have hexp : (10 : ℚ) ^ s.exponent = 10 ^ s.exponent.toNat := by
          rw [← zpow_natCast]
          congr 1
          omega
        simp only [ShortDecimal.value, hexp]
        push_cast
        ring
      · have hshift : (s.exponent + digits.length).toNat - digits.length = s.exponent.toNat := by
          omega
        have hread := readUnsigned_whole
          (digits ++ DecimalStyle.zeros ((s.exponent + digits.length).toNat - digits.length))
          (by simp [List.ne_nil_of_length_pos hlength])
          (by rw [List.all_append, all_isDigit_zeros, hall]; rfl)
        rw [digitsValue_append_zeros, hvalue, hshift] at hread
        simpa [DecimalStyle.plain, hshift] using hread
    case isFalse hinside =>
      refine ⟨s.digits, s.exponent, hpos, rfl, ?_⟩
      have hread := readUnsigned_fraction
        (digits.take (s.exponent + digits.length).toNat)
        (digits.drop (s.exponent + digits.length).toNat)
        (List.ne_nil_of_length_pos (by rw [List.length_take]; omega))
        (by rw [List.all_eq_true] at hall ⊢; exact fun c hc => hall c (List.mem_of_mem_take hc))
        (by rw [List.all_eq_true] at hall ⊢; exact fun c hc => hall c (List.mem_of_mem_drop hc))
      rw [List.take_append_drop, hvalue, List.length_drop] at hread
      exact hread.trans (by congr 2; omega)

theorem readUnsigned_magnitude {d : Dyadic} (hc : Canonical d.mantissa d.exponent) :
    readUnsigned (DecimalStyle.plain.magnitude d) =
      some (Float.ofModel (Float.Model.pack (hc.unpacked .positive))) := by
  obtain ⟨hpos, hrounds⟩ := ShortDecimal.ofDyadic_rounds hc
  obtain ⟨n, k, hn, hvalue, hread⟩ := readUnsigned_placePoint (.ofDyadic d) hpos
  have hpoint : (ShortDecimal.ofDyadic d).exponent +
      Int.ofNat (Nat.toDigits 10 (ShortDecimal.ofDyadic d).digits).length - 1 + 1 =
      (ShortDecimal.ofDyadic d).exponent +
        (Nat.toDigits 10 (ShortDecimal.ofDyadic d).digits).length := by
    rw [Int.ofNat_eq_natCast]
    omega
  rw [← hvalue] at hrounds
  unfold DecimalStyle.magnitude
  simp only [if_neg hc.pos.ne', DecimalStyle.plain, if_true, hpoint]
  rw [← nearest_eq hc hn hrounds]
  exact hread

theorem neg_pack_finite {m : Nat} {e : Int} (hc : Canonical m e) :
    Float.neg (Float.ofModel (Float.Model.pack (hc.unpacked .positive))) =
      Float.ofModel (Float.Model.pack (hc.unpacked .negative)) := by
  show Float.ofModel (Float.Model.pack (Float.Model.unpack _).neg) = _
  rw [unpack_pack hc]
  rfl

theorem readUnsigned_sign {c : Char} (hc : c = '-' ∨ c = '+') (rest : List Char) :
    readUnsigned (c :: rest) = none := by
  have hlower : lower c = c := by rcases hc with rfl | rfl <;> rfl
  have hdigit : isDigit c = false := by rcases hc with rfl | rfl <;> rfl
  have hpoint : c ≠ '.' := by rcases hc with rfl | rfl <;> decide
  have hword : ∀ word : String, word.toList.head? ≠ some c →
      String.ofList ((c :: rest).map lower) ≠ word := by
    rintro word hword rfl
    rw [String.toList_ofList, List.map_cons, hlower] at hword
    exact hword rfl
  have hinf := hword "inf" (by rcases hc with rfl | rfl <;> decide)
  have hinfinity := hword "infinity" (by rcases hc with rfl | rfl <;> decide)
  have hnan := hword "nan" (by rcases hc with rfl | rfl <;> decide)
  unfold readUnsigned
  simp only [hinf, hinfinity, hnan, or_self, if_false]
  simp [List.takeWhile, List.dropWhile, hdigit, hpoint]

theorem read_signed {text : List Char} {x : Float} (h : readUnsigned text = some x)
    (negative : Bool) :
    read (if negative then '-' :: text else text) = .ok (if negative then x.neg else x) := by
  cases negative with
  | true =>
    show Option.elim ((readUnsigned text).map Float.neg) (Except.error Fault.invalid) Except.ok = _
    rw [h]
    rfl
  | false =>
    show read text = .ok x
    match text, h with
    | [], h => exact absurd h (by simp [show readUnsigned [] = none from by decide])
    | c :: rest, h =>
      have hminus : c ≠ '-' := fun hc => by rw [readUnsigned_sign (.inl hc)] at h; contradiction
      have hplus : c ≠ '+' := fun hc => by rw [readUnsigned_sign (.inr hc)] at h; contradiction
      unfold read
      simp [hminus, hplus, h]

theorem read_render (x : Float) : read (DecimalStyle.plain.render x) = .ok x := by
  have hx := ofModel_pack_unpack x
  have hnan : x.isNaN = x.toModel.unpack.isNaN := rfl
  have hinf : x.isInf = x.toModel.unpack.isInf := rfl
  unfold DecimalStyle.render
  rw [hnan, hinf]
  rcases unpack_cases x with h | h | ⟨h, hzero⟩ | ⟨hc, h⟩ <;> rw [h] at hx ⊢
  case inl =>
    rw [← hx]
    rfl
  case inr.inl =>
    have hword : readUnsigned ['i', 'n', 'f'] = some infinity := rfl
    refine (read_signed hword (Dyadic.ofFloat x).negative).trans (congrArg _ (Eq.trans ?_ hx))
    rw [sign]
    cases (Dyadic.ofFloat x).negative <;> rfl
  case inr.inr.inl =>
    have hdigit : readUnsigned ['0'] = some 0 := rfl
    have htext : DecimalStyle.plain.magnitude (Dyadic.ofFloat x) = ['0'] := by
      simp [DecimalStyle.magnitude, hzero, DecimalStyle.plain]
    simp only [UnpackedFloat.isNaN, UnpackedFloat.isInf, Bool.false_eq_true, if_false, htext]
    refine (read_signed hdigit (Dyadic.ofFloat x).negative).trans (congrArg _ (Eq.trans ?_ hx))
    rw [sign]
    cases (Dyadic.ofFloat x).negative <;> rfl
  case inr.inr.inr =>
    refine (read_signed (readUnsigned_magnitude hc) (Dyadic.ofFloat x).negative).trans
      (congrArg _ (Eq.trans ?_ hx))
    rw [neg_pack_finite, sign]
    cases (Dyadic.ofFloat x).negative <;> rfl

end Decimal

end DurableScript
