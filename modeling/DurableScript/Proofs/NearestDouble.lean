import DurableScript.Decimal.Reader
import DurableScript.Proofs.Rounding

namespace DurableScript

open Float.Model Float.Model.UnpackedFloat

namespace Binary64

variable {m : Nat} {e : Int} {m₁ m₂ n : Nat} {e₁ e₂ k : Int}

theorem mul_eq (hc : Canonical m e) {h₁ : 0 < m₁} {h₂ : 0 < m₂}
    (h : Rounds m e ((m₁ * 2 ^ e₁) * (m₂ * 2 ^ e₂))) (hf : e₁ + e₂ ≤ target (m₁ * m₂) (e₁ + e₂)) :
    UnpackedFloat.mul Format.binary64 (.finite .positive m₁ e₁ h₁) (.finite .positive m₂ e₂ h₂) =
      hc.unpacked .positive := by
  have hmarks : Marks (.ofMantissaAndAccuracy (m₁ * m₂) .exact)
      ((m₁ * 2 ^ e₁) * (m₂ * 2 ^ e₂) / 2 ^ (e₁ + e₂)) := by
    have hcancel : ((m₁ : ℚ) * 2 ^ e₁) * (m₂ * 2 ^ e₂) / 2 ^ (e₁ + e₂) = (m₁ * m₂ : Nat) := by
      rw [zpow_add₀ two_ne_zero]
      have h₁ := (two_zpow_pos e₁).ne'
      have h₂ := (two_zpow_pos e₂).ne'
      push_cast
      field_simp
    rw [hcancel]
    exact marks_exact _
  exact roundWithAccuracy_eq hc h hmarks hf _

theorem le_target_div {f : Int} (h₁ : 0 < m₁) (h₂ : 0 < m₂) (hle : f ≤ e₁ - e₂)
    (hf : f ≤ Format.binary64.targetExponent (totalExponent m₁ e₁ - totalExponent m₂ e₂)) :
    f ≤ target (m₁ <<< (e₁ - e₂ - f).toNat / m₂) f := by
  have hunfold : Format.binary64.targetExponent (totalExponent m₁ e₁ - totalExponent m₂ e₂) =
      max (m₁.log2 + 1 + e₁ - (m₂.log2 + 1 + e₂) - 53) (-1074) := rfl
  rw [hunfold] at hf
  rw [target_eq]
  by_cases hsmall : f ≤ -1074
  · omega
  have hroom : m₂.log2 + 53 ≤ m₁.log2 + (e₁ - e₂ - f).toNat := by omega
  generalize (e₁ - e₂ - f).toNat = k at hroom ⊢
  have hbits : 2 ^ 52 ≤ m₁ <<< k / m₂ := by
    rw [Nat.le_div_iff_mul_le h₂, Nat.shiftLeft_eq]
    calc 2 ^ 52 * m₂ ≤ 2 ^ 52 * 2 ^ (m₂.log2 + 1) :=
          Nat.mul_le_mul_left _ Nat.lt_log2_self.le
      _ = 2 ^ (m₂.log2 + 53) := by rw [← Nat.pow_add]; congr 1; omega
      _ ≤ 2 ^ (m₁.log2 + k) := Nat.pow_le_pow_right two_pos hroom
      _ = 2 ^ m₁.log2 * 2 ^ k := Nat.pow_add ..
      _ ≤ m₁ * 2 ^ k := Nat.mul_le_mul_right _ (Nat.log2_self_le h₁.ne')
  have hne : m₁ <<< k / m₂ ≠ 0 := by omega
  have := (Nat.le_log2 hne).mpr hbits
  omega

theorem div_eq (hc : Canonical m e) {h₁ : 0 < m₁} {h₂ : 0 < m₂}
    (h : Rounds m e ((m₁ * 2 ^ e₁) / (m₂ * 2 ^ e₂))) :
    UnpackedFloat.div Format.binary64 (.finite .positive m₁ e₁ h₁) (.finite .positive m₂ e₂ h₂) =
      hc.unpacked .positive := by
  unfold UnpackedFloat.div divCore
  simp only
  generalize hf : min (e₁ - e₂)
    (Format.binary64.targetExponent (totalExponent m₁ e₁ - totalExponent m₂ e₂)) = f
  have hle : f ≤ e₁ - e₂ := hf ▸ min_le_left ..
  have htarget := le_target_div h₁ h₂ hle (hf ▸ min_le_right ..)
  have hscale : (2 : ℚ) ^ e₁ = 2 ^ f * 2 ^ e₂ * 2 ^ (e₁ - e₂ - f).toNat := by
    rw [← zpow_add₀ two_ne_zero, ← two_zpow_add_nat]
    congr 1
    omega
  generalize (e₁ - e₂ - f).toNat = k at htarget hscale ⊢
  have hmarks := marks_fraction (m₁ <<< k / m₂) (Nat.mod_lt (m₁ <<< k) h₂)
  refine roundWithAccuracy_eq hc h ?_ htarget _
  have hquotient : ((m₁ : ℚ) * 2 ^ e₁) / (m₂ * 2 ^ e₂) / 2 ^ f =
      (m₁ <<< k / m₂ : Nat) + (m₁ <<< k % m₂ : Nat) / (m₂ : ℚ) := by
    have hsplit : (m₂ : ℚ) * (m₁ <<< k / m₂ : Nat) + (m₁ <<< k % m₂ : Nat) = m₁ * 2 ^ k := by
      rw [Nat.shiftLeft_eq]
      exact_mod_cast Nat.div_add_mod (m₁ * 2 ^ k) m₂
    have hm₂ : (m₂ : ℚ) ≠ 0 := by exact_mod_cast h₂.ne'
    have hf := (two_zpow_pos f).ne'
    have he := (two_zpow_pos e₂).ne'
    calc (m₁ : ℚ) * 2 ^ e₁ / (m₂ * 2 ^ e₂) / 2 ^ f = m₁ * 2 ^ k / m₂ := by
          rw [hscale]
          field_simp
      _ = _ := by
          rw [← hsplit]
          field_simp
  rw [hquotient]
  exact hmarks

theorem ofScientific_eq (hc : Canonical m e) (hn : 0 < n) (hk : k ≤ 2048)
    (hk' : -(2048 + n.log2) ≤ k) (h : Rounds m e (n * 10 ^ k)) :
    UnpackedFloat.ofScientific Format.binary64 n k = hc.unpacked .positive := by
  have hbound : ¬ k > 2 ^ Format.binary64.exponentBits := by
    show ¬ k > 2048
    omega
  have hbound' : ¬ k < -((2 ^ Format.binary64.exponentBits : Int) + n.log2) := by
    show ¬ k < -(2048 + (n.log2 : Int))
    omega
  unfold UnpackedFloat.ofScientific
  rw [dif_neg hn.ne', if_neg hbound, if_neg hbound']
  by_cases hsign : 0 ≤ k
  · rw [if_pos hsign]
    apply mul_eq hc
    · have hvalue : (n : ℚ) * (10 : ℚ) ^ k =
          ((n <<< 53 : Nat) * 2 ^ (-53 : Int)) * ((10 ^ k.toNat : Nat) * 2 ^ (0 : Int)) := by
        obtain ⟨i, rfl⟩ := Int.eq_ofNat_of_zero_le hsign
        rw [Nat.shiftLeft_eq, zpow_neg, zpow_natCast, zpow_zero]
        push_cast
        rw [Int.toNat_natCast]
        norm_num
        ring
      rw [hvalue] at h
      exact h
    · have hne : n <<< 53 * 10 ^ k.toNat ≠ 0 := by
        rw [Nat.shiftLeft_eq]
        positivity
      have hbits : 2 ^ 53 ≤ n <<< 53 * 10 ^ k.toNat := by
        rw [Nat.shiftLeft_eq]
        calc 2 ^ 53 = 1 * 2 ^ 53 * 1 := rfl
          _ ≤ n * 2 ^ 53 * 10 ^ k.toNat :=
            Nat.mul_le_mul (Nat.mul_le_mul_right _ hn) (Nat.one_le_pow _ _ (by decide))
      have hlog := (Nat.le_log2 hne).mpr hbits
      show (-53 : Int) + 0 ≤ target (n <<< 53 * 10 ^ k.toNat) (-53 + 0)
      rw [target_eq]
      omega
  · rw [if_neg hsign]
    apply div_eq hc
    have hvalue : (n : ℚ) * (10 : ℚ) ^ k =
        (n * 2 ^ (0 : Int)) / ((10 ^ (-k).toNat : Nat) * 2 ^ (0 : Int)) := by
      obtain ⟨i, hi⟩ := Int.eq_ofNat_of_zero_le (show 0 ≤ -k by omega)
      have hk : k = -(i : Int) := by omega
      rw [hk, zpow_neg, zpow_natCast, neg_neg, Int.toNat_natCast, zpow_zero]
      push_cast
      field_simp
    rw [hvalue] at h
    exact h

theorem ofNat_eq (hn : 0 < n) (hlt : n < 2 ^ 53) :
    ∃ (m : Nat) (e : Int) (hc : Canonical m e), 2 ^ 52 ≤ m ∧ (m : ℚ) * 2 ^ e = n ∧
      UnpackedFloat.ofNat Format.binary64 n = hc.unpacked .positive := by
  have hlog : n.log2 < 53 := (Nat.log2_lt hn.ne').mpr hlt
  obtain ⟨j, hj⟩ : ∃ j, n.log2 + j = 52 := ⟨52 - n.log2, by omega⟩
  have hlower : 2 ^ 52 ≤ n * 2 ^ j := by
    rw [← hj, Nat.pow_add]
    exact Nat.mul_le_mul_right _ (Nat.log2_self_le hn.ne')
  have hupper : n * 2 ^ j < 2 ^ 53 := by
    calc n * 2 ^ j < 2 ^ (n.log2 + 1) * 2 ^ j :=
          Nat.mul_lt_mul_of_pos_right Nat.lt_log2_self (Nat.two_pow_pos j)
      _ = 2 ^ 53 := by rw [← Nat.pow_add]; congr 1; omega
  have hc : Canonical (n * 2 ^ j) (-j) := ⟨by positivity, hupper, by omega, by omega, .inl hlower⟩
  have hvalue : ((n * 2 ^ j : Nat) : ℚ) * 2 ^ (-(j : Int)) = n := by
    rw [zpow_neg, zpow_natCast]
    push_cast
    field_simp
  refine ⟨_, _, hc, hlower, hvalue, ?_⟩
  have hround : UnpackedFloat.ofNat Format.binary64 n =
      UnpackedFloat.round Format.binary64 .positive n 0 := by
    have hcompare : compare (n : Int) 0 = .gt := by
      rw [compare_gt_iff_gt]
      exact_mod_cast hn
    simp only [UnpackedFloat.ofNat, UnpackedFloat.ofInt, UnpackedFloat.normalize, hcompare,
      Int.toNat_natCast]
  have htarget : target n 0 = -j := by
    rw [target_eq]
    omega
  have hdecrease : decreaseExponent n 0 (target n 0) = (n * 2 ^ j, -(j : Int)) := by
    have hshift : (-target n 0).toNat = j := by omega
    simp only [decreaseExponent, hshift, Nat.shiftLeft_eq, zero_sub]
  rw [hround]
  show roundWithAccuracy Format.binary64 .positive (decreaseExponent n 0 (target n 0)).1
    (decreaseExponent n 0 (target n 0)).2 .exact = _
  rw [hdecrease]
  refine roundWithAccuracy_eq hc (rounds_self _ _) ?_ hc.target_eq.ge _
  rw [mul_div_cancel_right₀ _ (two_zpow_pos _).ne']
  exact marks_exact _

theorem powers_exact : ∀ k : Fin Float.exactlyRepresentablePowersOfTen.size,
    let x := Float.exactlyRepresentablePowersOfTen[k]
    let d := Dyadic.ofFloat x
    x.isNaN = false ∧ x.isInf = false ∧ d.negative = false ∧ 2 ^ 52 ≤ d.mantissa ∧
      d.mantissa * 2 ^ d.exponent.toNat = 10 ^ k.val * 2 ^ (-d.exponent).toNat := by
  decide +kernel

theorem two_zpow_eq_div (e : Int) : (2 : ℚ) ^ e = 2 ^ e.toNat / 2 ^ (-e).toNat := by
  obtain ⟨n, rfl | rfl⟩ := e.eq_nat_or_neg
  · simp
  · simp [zpow_neg]

theorem power_eq {k : Nat} (hk : k < Float.exactlyRepresentablePowersOfTen.size) :
    ∃ (m : Nat) (e : Int) (hc : Canonical m e), 2 ^ 52 ≤ m ∧ (m : ℚ) * 2 ^ e = 10 ^ k ∧
      Float.exactlyRepresentablePowersOfTen[k].toModel.unpack = hc.unpacked .positive := by
  obtain ⟨hnan, hinf, hsign, hfull, hvalue⟩ := powers_exact ⟨k, hk⟩
  generalize hx : Float.exactlyRepresentablePowersOfTen[k] = x
  have hx' : Float.exactlyRepresentablePowersOfTen[(⟨k, hk⟩ :
    Fin Float.exactlyRepresentablePowersOfTen.size)] = x := hx
  rw [hx'] at hnan hinf hsign hfull hvalue
  have hvalue' : ((Dyadic.ofFloat x).mantissa : ℚ) * 2 ^ (Dyadic.ofFloat x).exponent = 10 ^ k := by
    rw [two_zpow_eq_div, mul_div_assoc', div_eq_iff (by positivity)]
    exact_mod_cast hvalue
  rcases unpack_cases x with h | h | ⟨h, hzero⟩ | ⟨hc, h⟩
  · have : x.isNaN = true := by simp only [Float.isNaN, Float.Model.isNaN, h, UnpackedFloat.isNaN]
    rw [hnan] at this
    contradiction
  · have : x.isInf = true := by simp only [Float.isInf, Float.Model.isInf, h, UnpackedFloat.isInf]
    rw [hinf] at this
    contradiction
  · omega
  · rw [sign, hsign] at h
    exact ⟨_, _, hc, hfull, hvalue', h⟩

theorem unpack_toFloat (hn : 0 < n) (hlt : n < 2 ^ 53) :
    ∃ (m : Nat) (e : Int) (hc : Canonical m e), 2 ^ 52 ≤ m ∧ (m : ℚ) * 2 ^ e = n ∧
      n.toUInt64.toFloat.toModel.unpack = hc.unpacked .positive := by
  obtain ⟨m, e, hc, hfull, hvalue, h⟩ := ofNat_eq hn hlt
  refine ⟨m, e, hc, hfull, hvalue, ?_⟩
  have hword : n.toUInt64.toNat = n := by
    rw [Nat.toUInt64_eq, UInt64.toNat_ofNat', Nat.mod_eq_of_lt (by omega)]
  show (Float.Model.pack (UnpackedFloat.ofNat Format.binary64 n.toUInt64.toNat)).unpack = _
  rw [hword, h, unpack_pack]

theorem le_target_mul (f : Int) (h₁ : 2 ^ 52 ≤ m₁) (h₂ : 2 ^ 52 ≤ m₂) : f ≤ target (m₁ * m₂) f := by
  have hbits : 2 ^ 104 ≤ m₁ * m₂ := by
    calc 2 ^ 104 = 2 ^ 52 * 2 ^ 52 := by norm_num
      _ ≤ m₁ * m₂ := Nat.mul_le_mul h₁ h₂
  have hlog := (Nat.le_log2 (by omega : m₁ * m₂ ≠ 0)).mpr hbits
  rw [target_eq]
  omega

theorem floatOfScientific_eq (hc : Canonical m e) (hn : 0 < n) (hk : k ≤ 2048)
    (hk' : -(2048 + n.log2) ≤ k) (h : Rounds m e (n * 10 ^ k)) :
    Float.ofScientific n (decide (k < 0)) k.natAbs =
      Float.ofModel (Float.Model.pack (hc.unpacked .positive)) := by
  unfold Float.ofScientific
  split
  case isTrue hfast =>
    have hindex : k.natAbs < Float.exactlyRepresentablePowersOfTen.size :=
      Nat.lt_succ_of_le hfast.2
    obtain ⟨m₁, e₁, hc₁, hfull₁, hvalue₁, h₁⟩ := unpack_toFloat hn hfast.1
    obtain ⟨m₂, e₂, hc₂, hfull₂, hvalue₂, h₂⟩ := power_eq hindex
    by_cases hneg : k < 0
    · have hpower : (10 : ℚ) ^ k = (10 ^ k.natAbs)⁻¹ := by
        rw [← zpow_natCast, ← zpow_neg]
        congr 1
        omega
      rw [hpower, ← hvalue₁, ← hvalue₂, ← div_eq_mul_inv] at h
      simp only [hneg, decide_true, if_true]
      show Float.ofModel (Float.Model.pack (UnpackedFloat.div Format.binary64
        n.toUInt64.toFloat.toModel.unpack
        Float.exactlyRepresentablePowersOfTen[k.natAbs].toModel.unpack)) = _
      rw [h₁, h₂, div_eq hc h]
    · have hpower : (10 : ℚ) ^ k = 10 ^ k.natAbs := by
        rw [← zpow_natCast]
        congr 1
        omega
      rw [hpower, ← hvalue₁, ← hvalue₂] at h
      simp only [hneg, decide_false, Bool.false_eq_true, if_false]
      show Float.ofModel (Float.Model.pack (UnpackedFloat.mul Format.binary64
        n.toUInt64.toFloat.toModel.unpack
        Float.exactlyRepresentablePowersOfTen[k.natAbs].toModel.unpack)) = _
      rw [h₁, h₂, mul_eq hc h (le_target_mul _ hfull₁ hfull₂)]
  case isFalse =>
    have hexp : (if decide (k < 0) = true then Int.negOfNat k.natAbs else Int.ofNat k.natAbs) =
        k := by
      simp only [decide_eq_true_eq, Int.negOfNat_eq, Int.ofNat_eq_natCast]
      split <;> omega
    simp only [hexp]
    show Float.ofModel (Float.Model.pack (UnpackedFloat.ofScientific Format.binary64 n k)) = _
    rw [ofScientific_eq hc hn hk hk' h]

theorem pow_length_toDigits_le (hn : 0 < n) : 10 ^ ((Nat.toDigits 10 n).length - 1) ≤ n := by
  have hlength : 0 < (Nat.toDigits 10 n).length := Nat.length_toDigits_pos
  by_cases hone : (Nat.toDigits 10 n).length - 1 = 0
  · rw [hone]
    exact hn
  · by_contra hlt
    have := (Nat.length_toDigits_le_iff (by decide) (Nat.pos_of_ne_zero hone)).mpr
      (Nat.lt_of_not_le hlt)
    omega

theorem lt_pow_length_toDigits (n : Nat) : n < 10 ^ (Nat.toDigits 10 n).length :=
  (Nat.length_toDigits_le_iff (by decide) Nat.length_toDigits_pos).mp (le_refl _)

theorem Rounds.two_zpow_le {q : ℚ} (hc : Canonical m e) (h : Rounds m e q) :
    2 ^ (-1075 : Int) ≤ q := by
  have hm : (1 : ℚ) ≤ m := by exact_mod_cast hc.pos
  have hb := below_le_two m e
  have hleast : (2 : ℚ) ^ (-1076 : Int) ≤ 2 ^ (e - 2) :=
    zpow_le_zpow_right₀ one_le_two (by have := hc.least; omega)
  have hu := two_zpow_pos (-1076)
  have hdouble : (2 : ℚ) ^ (-1075 : Int) = 2 ^ (-1076 : Int) * 2 := by
    rw [← zpow_add_one₀ two_ne_zero]
    norm_num
  have hlo := h.least
  rw [hdouble]
  nlinarith

theorem Rounds.lead_bounds (hc : Canonical m e) (hn : 0 < n) (h : Rounds m e (n * 10 ^ k)) :
    -324 < k + (Nat.toDigits 10 n).length ∧ k + (Nat.toDigits 10 n).length < 310 := by
  have hlength : 0 < (Nat.toDigits 10 n).length := Nat.length_toDigits_pos
  have hten : (0 : ℚ) < 10 ^ k := zpow_pos (by norm_num) k
  have hlo : (10 : ℚ) ^ ((Nat.toDigits 10 n).length - 1) ≤ n := by
    exact_mod_cast pow_length_toDigits_le hn
  have hhi : (n : ℚ) < 10 ^ (Nat.toDigits 10 n).length := by
    exact_mod_cast lt_pow_length_toDigits n
  have hone : (1 : ℚ) < 10 := by norm_num
  constructor
  · have hsmall : (10 : ℚ) ^ (-324 : Int) < 10 ^ (k + (Nat.toDigits 10 n).length) := by
      calc (10 : ℚ) ^ (-324 : Int) ≤ 2 ^ (-1075 : Int) := by
            rw [zpow_neg, zpow_neg, zpow_ofNat, zpow_ofNat]
            refine inv_anti₀ (by positivity) ?_
            exact_mod_cast (by decide +kernel : 2 ^ 1075 ≤ 10 ^ 324)
        _ ≤ n * 10 ^ k := h.two_zpow_le hc
        _ < 10 ^ (Nat.toDigits 10 n).length * 10 ^ k := mul_lt_mul_of_pos_right hhi hten
        _ = 10 ^ (k + (Nat.toDigits 10 n).length) := by
            rw [zpow_add₀ (by norm_num), zpow_natCast, mul_comm]
    exact (zpow_lt_zpow_iff_right₀ hone).mp hsmall
  · have hlarge : (10 : ℚ) ^ (((Nat.toDigits 10 n).length - 1 : Nat) + k) < 10 ^ (309 : Int) := by
      calc (10 : ℚ) ^ (((Nat.toDigits 10 n).length - 1 : Nat) + k) =
            10 ^ ((Nat.toDigits 10 n).length - 1) * 10 ^ k := by
            rw [zpow_add₀ (by norm_num), zpow_natCast]
        _ ≤ n * 10 ^ k := mul_le_mul_of_nonneg_right hlo hten.le
        _ < 2 ^ (e + 53) := h.lt_two_zpow hc
        _ ≤ 2 ^ (1024 : Int) :=
            zpow_le_zpow_right₀ one_le_two (by have := hc.greatest; omega)
        _ < 10 ^ (309 : Int) := by
            rw [zpow_ofNat, zpow_ofNat]
            exact_mod_cast (by decide +kernel : 2 ^ 1024 < 10 ^ 309)
    have := (zpow_lt_zpow_iff_right₀ hone).mp hlarge
    omega

theorem nearest_eq (hc : Canonical m e) (hn : 0 < n) (h : Rounds m e (n * 10 ^ k)) :
    Decimal.nearest n k = Float.ofModel (Float.Model.pack (hc.unpacked .positive)) := by
  obtain ⟨hlo, hhi⟩ := h.lead_bounds hc hn
  have hlog : (Nat.toDigits 10 n).length - 1 ≤ n.log2 := by
    rw [Nat.le_log2 hn.ne']
    exact (Nat.pow_le_pow_left (by decide) _).trans (pow_length_toDigits_le hn)
  have hbound : ¬ 400 < k + Int.ofNat (Nat.toDigits 10 n).length := by
    rw [Int.ofNat_eq_natCast]
    omega
  have hbound' : ¬ k + Int.ofNat (Nat.toDigits 10 n).length < -400 := by
    rw [Int.ofNat_eq_natCast]
    omega
  unfold Decimal.nearest
  simp only [if_neg hn.ne', if_neg hbound, if_neg hbound']
  exact floatOfScientific_eq hc hn (by omega) (by omega) h

end Binary64

end DurableScript
