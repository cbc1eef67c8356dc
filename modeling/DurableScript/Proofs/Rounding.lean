import DurableScript.Proofs.Binary64

/-!
Rounding to doubles. A mantissa with its two residual bits stands for an interval of exact numbers,
and shifting it right halves the number. Main statement: `roundWithAccuracy_eq`, a number that
lies in the rounding interval of a double is rounded to it.
-/

namespace DurableScript

open Float.Model Float.Model.UnpackedFloat

namespace Binary64

variable {m n : Nat} {e f : Int} {acc : Accuracy} {q : ℚ}

/-- The exact number `q` lies where the mantissa and its residual bits say. -/
def Marks : ExtendedMantissa → ℚ → Prop
  | ⟨m, false, false⟩, q => q = m
  | ⟨m, false, true⟩, q => m < q ∧ q < m + 1 / 2
  | ⟨m, true, false⟩, q => q = m + 1 / 2
  | ⟨m, true, true⟩, q => m + 1 / 2 < q ∧ q < m + 1

theorem marks_exact (m : Nat) : Marks (.ofMantissaAndAccuracy m .exact) m := rfl

theorem marks_fraction (m : Nat) {num den : Nat} (h : num < den) :
    Marks (.ofMantissaAndAccuracy m (accuracyOfFraction num den)) (m + num / den) := by
  have hden : (0 : ℚ) < den := by exact_mod_cast Nat.zero_lt_of_lt h
  have hlt : (num : ℚ) / den < 1 := by
    rw [div_lt_one hden]
    exact_mod_cast h
  by_cases hzero : num = 0
  · simp [accuracyOfFraction, hzero, ExtendedMantissa.ofMantissaAndAccuracy, Marks]
  have hpos : (0 : ℚ) < num / den := div_pos (by exact_mod_cast Nat.pos_of_ne_zero hzero) hden
  simp only [accuracyOfFraction, if_neg hzero]
  rcases lt_trichotomy (2 * num) den with hc | hc | hc
  · have hhalf : (num : ℚ) / den < 1 / 2 := by
      rw [div_lt_div_iff₀ hden two_pos]
      exact_mod_cast (by omega : num * 2 < 1 * den)
    rw [Nat.compare_eq_lt.mpr hc]
    exact ⟨by linarith, by linarith⟩
  · have hhalf : (num : ℚ) / den = 1 / 2 := by
      rw [div_eq_div_iff hden.ne' two_ne_zero]
      exact_mod_cast (by omega : num * 2 = 1 * den)
    rw [Nat.compare_eq_eq.mpr hc]
    show (m : ℚ) + num / den = m + 1 / 2
    rw [hhalf]
  · have hhalf : (1 : ℚ) / 2 < num / den := by
      rw [div_lt_div_iff₀ two_pos hden]
      exact_mod_cast (by omega : 1 * den < num * 2)
    rw [Nat.compare_eq_gt.mpr hc]
    exact ⟨by linarith, by linarith⟩

namespace Marks

variable {em : ExtendedMantissa} {q : ℚ}

theorem mantissa_le (h : Marks em q) : (em.mantissa : ℚ) ≤ q := by
  obtain ⟨m, _ | _, _ | _⟩ := em <;> simp only [Marks] at h <;> simp only <;> linarith

theorem lt_mantissa_add_one (h : Marks em q) : q < em.mantissa + 1 := by
  obtain ⟨m, _ | _, _ | _⟩ := em <;> simp only [Marks] at h <;> simp only <;> linarith

theorem shiftRightOne (h : Marks em q) : Marks em.shiftRightOne (q / 2) := by
  obtain ⟨m, r, s⟩ := em
  have hsplit : (m : ℚ) = 2 * (m / 2 : Nat) + (m % 2 : Nat) := by
    exact_mod_cast (Nat.div_add_mod m 2).symm
  -- The lowest bit becomes the round bit, and the old residual bits can only show in the sticky one.
  rcases Nat.mod_two_eq_zero_or_one m with hm | hm <;> rw [hm] at hsplit <;>
    push_cast at hsplit <;> cases r <;> cases s <;>
    simp only [Marks, ExtendedMantissa.shiftRightOne, hm, bne_self_eq_false, Bool.or_false,
      Bool.or_true, Bool.or_self, show (1 != 0) = true from rfl] at h ⊢ <;>
    first | linarith | exact ⟨by linarith, by linarith⟩

theorem shiftRight (h : Marks em q) (n : Nat) : Marks (em >>> n) (q / 2 ^ n) := by
  show Marks (n.repeat ExtendedMantissa.shiftRightOne em) _
  induction n with
  | zero => simpa [Nat.repeat] using h
  | succ n ih =>
    rw [pow_succ, ← div_div]
    exact ih.shiftRightOne

theorem roundedMantissa_eq (h : Marks em q) {n : Nat} (hlo : (n : ℚ) - 1 / 2 ≤ q)
    (hhi : q ≤ n + 1 / 2) (htie : n % 2 = 1 → (n : ℚ) - 1 / 2 < q ∧ q < n + 1 / 2) :
    em.roundedMantissa = n := by
  obtain ⟨m, r, s⟩ := em
  cases r <;> cases s <;> simp only [Marks] at h
  case false.false =>
    have hle : m < n + 1 := by exact_mod_cast (by linarith : (m : ℚ) < n + 1)
    have hge : n < m + 1 := by exact_mod_cast (by linarith : (n : ℚ) < m + 1)
    show m = n
    omega
  case false.true =>
    have hle : m < n + 1 := by exact_mod_cast (by linarith : (m : ℚ) < n + 1)
    have hge : n < m + 1 := by exact_mod_cast (by linarith : (n : ℚ) < m + 1)
    show m = n
    omega
  case true.false =>
    have hle : m ≤ n := by exact_mod_cast (by linarith : (m : ℚ) ≤ n)
    have hge : n ≤ m + 1 := by exact_mod_cast (by linarith : (n : ℚ) ≤ m + 1)
    have heven : n % 2 = 0 := by
      rcases Nat.mod_two_eq_zero_or_one n with hn | hn
      · exact hn
      obtain ⟨hl, hr⟩ := htie hn
      have : m < n := by exact_mod_cast (by linarith : (m : ℚ) < n)
      have : n < m + 1 := by exact_mod_cast (by linarith : (n : ℚ) < m + 1)
      omega
    show m + m % 2 = n
    omega
  case true.true =>
    have hle : m < n := by exact_mod_cast (by linarith : (m : ℚ) < n)
    have hge : n < m + 2 := by exact_mod_cast (by linarith : (n : ℚ) < m + 2)
    show m + 1 = n
    omega

end Marks

/-- How far under a double its rounding interval reaches, in quarters of the last place: under a
power of two the doubles lie twice as close. -/
def below (m : Nat) (e : Int) : Nat := if m = 2 ^ 52 ∧ -1074 < e then 1 else 2

theorem below_pos (m : Nat) (e : Int) : (0 : ℚ) < below m e := by
  unfold below
  split <;> norm_num

theorem below_le_two (m : Nat) (e : Int) : (below m e : ℚ) ≤ 2 := by
  unfold below
  split <;> norm_num

/-- The exact number `q` rounds to the double `m · 2 ^ e`. -/
structure Rounds (m : Nat) (e : Int) (q : ℚ) : Prop where
  least : (4 * m - below m e) * 2 ^ (e - 2) ≤ q
  greatest : q ≤ (4 * m + 2) * 2 ^ (e - 2)
  tie : m % 2 = 1 → (4 * m - below m e) * 2 ^ (e - 2) < q ∧ q < (4 * m + 2) * 2 ^ (e - 2)

theorem two_zpow_pos (e : Int) : (0 : ℚ) < 2 ^ e := zpow_pos two_pos e

theorem two_zpow_sub_two (e : Int) : (2 : ℚ) ^ (e - 2) = 2 ^ e / 4 := by
  rw [zpow_sub₀ two_ne_zero]
  norm_num

theorem two_zpow_add_nat (e : Int) (n : Nat) : (2 : ℚ) ^ (e + n) = 2 ^ e * 2 ^ n := by
  rw [zpow_add₀ two_ne_zero, zpow_natCast]

theorem two_zpow_lt_iff {a b : Int} : (2 : ℚ) ^ a < 2 ^ b ↔ a < b :=
  zpow_lt_zpow_iff_right₀ one_lt_two

theorem rounds_self (m : Nat) (e : Int) : Rounds m e (m * 2 ^ e) := by
  have hu := two_zpow_pos e
  have hb := below_pos m e
  have hlo : (4 * m - below m e) * 2 ^ (e - 2) < (m : ℚ) * 2 ^ e := by
    rw [two_zpow_sub_two]
    nlinarith
  have hhi : (m : ℚ) * 2 ^ e < (4 * m + 2) * 2 ^ (e - 2) := by
    rw [two_zpow_sub_two]
    nlinarith
  exact ⟨hlo.le, hhi.le, fun _ => ⟨hlo, hhi⟩⟩

namespace Rounds

variable {m : Nat} {e : Int} {q : ℚ}

theorem pos (hc : Canonical m e) (h : Rounds m e q) : 0 < q := by
  have hm : (1 : ℚ) ≤ m := by exact_mod_cast hc.pos
  have hb := below_le_two m e
  have hu := two_zpow_pos (e - 2)
  have : 0 < (4 * m - below m e) * (2 : ℚ) ^ (e - 2) := mul_pos (by linarith) hu
  exact this.trans_le h.least

theorem lt_two_zpow (hc : Canonical m e) (h : Rounds m e q) : q < 2 ^ (e + 53) := by
  have hm : (m : ℚ) + 1 ≤ 2 ^ 53 := by exact_mod_cast hc.lt
  have hu := two_zpow_pos e
  have hadd : (2 : ℚ) ^ (e + 53) = 2 ^ e * 2 ^ 53 := two_zpow_add_nat e 53
  have hhi := h.greatest
  rw [two_zpow_sub_two] at hhi
  rw [hadd]
  nlinarith

theorem two_zpow_lt (hfull : 2 ^ 52 ≤ m) (h : Rounds m e q) : 2 ^ (e + 51) < q := by
  have hm : (2 : ℚ) ^ 52 ≤ m := by exact_mod_cast hfull
  have hb := below_le_two m e
  have hu := two_zpow_pos e
  have hadd : (2 : ℚ) ^ (e + 51) = 2 ^ e * 2 ^ 51 := two_zpow_add_nat e 51
  have hlo := h.least
  rw [two_zpow_sub_two] at hlo
  rw [hadd]
  nlinarith

theorem eq_of_lt_two_zpow (hfull : 2 ^ 52 ≤ m) (h : Rounds m e q)
    (hq : q < 2 ^ (e + 52)) : m = 2 ^ 52 := by
  by_contra hne
  have hm : (2 : ℚ) ^ 52 + 1 ≤ m := by exact_mod_cast Nat.lt_of_le_of_ne hfull (Ne.symm hne)
  have hb : below m e = 2 := if_neg fun hboth => hne hboth.1
  have hu := two_zpow_pos e
  have hadd : (2 : ℚ) ^ (e + 52) = 2 ^ e * 2 ^ 52 := two_zpow_add_nat e 52
  have hlo := h.least
  rw [hb, two_zpow_sub_two] at hlo
  push_cast at hlo
  rw [hadd] at hq
  nlinarith

end Rounds

def target (n : Nat) (f : Int) : Int := Format.binary64.targetExponent (totalExponent n f)

theorem target_eq (n : Nat) (f : Int) : target n f = max (n.log2 + 1 + f - 53) (-1074) := rfl

theorem mantissa_ofMantissaAndAccuracy (n : Nat) (acc : Accuracy) :
    (ExtendedMantissa.ofMantissaAndAccuracy n acc).mantissa = n := by
  match acc with
  | .exact => rfl
  | .inexact .lt => rfl
  | .inexact .eq => rfl
  | .inexact .gt => rfl

theorem Marks.two_zpow_bounds (hn : n ≠ 0) (h : Marks (.ofMantissaAndAccuracy n acc) (q / 2 ^ f)) :
    2 ^ (f + n.log2) ≤ q ∧ q < 2 ^ (f + n.log2 + 1) := by
  have hlo := h.mantissa_le
  have hhi := h.lt_mantissa_add_one
  rw [mantissa_ofMantissaAndAccuracy] at hlo hhi
  have hu := two_zpow_pos f
  rw [le_div_iff₀ hu] at hlo
  rw [div_lt_iff₀ hu] at hhi
  have hlog : (2 : ℚ) ^ n.log2 ≤ n := by exact_mod_cast Nat.log2_self_le hn
  have hlog' : (n : ℚ) + 1 ≤ 2 ^ (n.log2 + 1) := by
    exact_mod_cast Nat.lt_log2_self
  constructor
  · rw [two_zpow_add_nat]
    nlinarith
  · have hadd : (2 : ℚ) ^ (f + n.log2 + 1) = 2 ^ f * 2 ^ (n.log2 + 1) := by
      rw [add_assoc]
      exact two_zpow_add_nat f (n.log2 + 1)
    rw [hadd]
    nlinarith

theorem Rounds.target_eq (hc : Canonical m e) (h : Rounds m e q)
    (hm : Marks (.ofMantissaAndAccuracy n acc) (q / 2 ^ f)) (hf : f ≤ target n f) :
    target n f = e ∨ target n f = e - 1 ∧ m = 2 ^ 52 ∧ -1074 < e ∧ q < 2 ^ (e + 52) := by
  have hleast := hc.least
  have hfull : e ≠ -1074 → 2 ^ 52 ≤ m := hc.full.resolve_right
  rw [Binary64.target_eq] at hf ⊢
  by_cases hn : n = 0
  · -- The whole part vanishes at the least exponent only.
    have hlog : n.log2 = 0 := by rw [hn]; rfl
    have hq : q < 2 ^ f := by
      have := hm.lt_mantissa_add_one
      rw [mantissa_ofMantissaAndAccuracy, hn, div_lt_iff₀ (two_zpow_pos f)] at this
      simpa using this
    left
    by_contra hne
    have he : -1074 < e := by omega
    have := two_zpow_lt_iff.mp ((h.two_zpow_lt (hfull he.ne')).trans hq)
    omega
  · obtain ⟨hlo, hhi⟩ := hm.two_zpow_bounds hn
    have hupper := two_zpow_lt_iff.mp (hlo.trans_lt (h.lt_two_zpow hc))
    by_cases he : e = -1074
    · left
      omega
    · have hlower := two_zpow_lt_iff.mp ((h.two_zpow_lt (hfull he)).trans hhi)
      by_cases heq : f + n.log2 + 1 = e + 52
      · right
        rw [heq] at hhi
        exact ⟨by omega, h.eq_of_lt_two_zpow (hfull he) hhi, by omega, hhi⟩
      · left
        omega

theorem shiftToTargetExponent_eq (acc : Accuracy) (hf : f ≤ target n f) :
    shiftToTargetExponent Format.binary64 n f acc =
      (ExtendedMantissa.ofMantissaAndAccuracy n acc >>> (target n f - f).toNat, target n f) := by
  have hexp : f + (target n f - f).toNat = target n f := by omega
  show (_, f + ((target n f - f).toNat : Int)) = _
  rw [hexp]
  rfl

theorem Marks.shiftToTarget (h : Marks (.ofMantissaAndAccuracy n acc) (q / 2 ^ f))
    (hf : f ≤ target n f) :
    Marks (ExtendedMantissa.ofMantissaAndAccuracy n acc >>> (target n f - f).toNat)
      (q / 2 ^ target n f) := by
  have hexp : target n f = f + (target n f - f).toNat := by omega
  have := h.shiftRight (target n f - f).toNat
  rw [div_div, ← two_zpow_add_nat, ← hexp] at this
  exact this

theorem Canonical.target_eq (h : Canonical m e) : target m e = e := by
  have hupper : m.log2 < 53 := (Nat.log2_lt h.pos.ne').mpr h.lt
  have hleast := h.least
  rw [Binary64.target_eq]
  rcases h.full with hfull | he
  · have hlower := (Nat.le_log2 h.pos.ne').mpr hfull
    omega
  · omega

theorem roundWithAccuracy_of_shifts {first second : ExtendedMantissa} {e₁ : Int}
    (h₁ : shiftToTargetExponent Format.binary64 n f acc = (first, e₁))
    (h₂ : shiftToTargetExponent Format.binary64 first.roundedMantissa e₁ .exact = (second, e))
    (hpos : 0 < second.mantissa) (s : Sign) :
    roundWithAccuracy Format.binary64 s n f acc = .finite s second.mantissa e hpos := by
  unfold roundWithAccuracy
  simp only [h₁, h₂, dif_neg hpos.ne']

theorem roundWithAccuracy_eq (hc : Canonical m e) (h : Rounds m e q)
    (hm : Marks (.ofMantissaAndAccuracy n acc) (q / 2 ^ f)) (hf : f ≤ target n f) (s : Sign) :
    roundWithAccuracy Format.binary64 s n f acc = hc.unpacked s := by
  have hfirst := shiftToTargetExponent_eq acc hf
  have hmarks := hm.shiftToTarget hf
  have hu := two_zpow_pos e
  have hlo := h.least
  have hhi := h.greatest
  have htie := h.tie
  rw [two_zpow_sub_two] at hlo hhi htie
  rcases h.target_eq hc hm hf with ht | ⟨ht, hpow, he, hq⟩
  · have hb := below_le_two m e
    rw [ht] at hmarks hfirst
    have hrounded := hmarks.roundedMantissa_eq
      (show (m : ℚ) - 1 / 2 ≤ _ by rw [le_div_iff₀ hu]; nlinarith)
      (by rw [div_le_iff₀ hu]; nlinarith)
      (fun hodd => by
        obtain ⟨hl, hr⟩ := htie hodd
        rw [lt_div_iff₀ hu, div_lt_iff₀ hu]
        constructor <;> nlinarith)
    have hsecond := shiftToTargetExponent_eq .exact hc.target_eq.ge
    rw [hc.target_eq, sub_self] at hsecond
    exact roundWithAccuracy_of_shifts hfirst (by rw [hrounded, hsecond]) hc.pos s
  · -- The number lies under a power of two and is rounded up to it, with one bit too many.
    have hv := two_zpow_pos (e - 1)
    have hhalf : (2 : ℚ) ^ e = 2 ^ (e - 1) * 2 := by
      rw [← zpow_add_one₀ two_ne_zero, sub_add_cancel]
    have hb : below m e = 1 := if_pos ⟨hpow, he⟩
    rw [hb, hpow, hhalf] at hlo
    have hadd : (2 : ℚ) ^ (e + 52) = 2 ^ (e - 1) * 2 ^ 53 := by
      rw [← two_zpow_add_nat]
      congr 1
      push_cast
      ring
    rw [hadd] at hq
    rw [ht] at hmarks hfirst
    have hrounded := hmarks.roundedMantissa_eq
      (show ((2 ^ 53 : Nat) : ℚ) - 1 / 2 ≤ _ by
        rw [le_div_iff₀ hv]
        push_cast at hlo ⊢
        nlinarith)
      (by rw [div_le_iff₀ hv]; push_cast; nlinarith)
      (fun hodd => absurd hodd (by decide))
    have htarget : target (2 ^ 53) (e - 1) = e := by
      rw [Binary64.target_eq, Nat.log2_two_pow]
      omega
    have hsecond := shiftToTargetExponent_eq .exact
      (show e - 1 ≤ target (2 ^ 53) (e - 1) by omega)
    have hshift : (e - (e - 1)).toNat = 1 := by omega
    rw [htarget, hshift] at hsecond
    have hlast := roundWithAccuracy_of_shifts hfirst (by rw [hrounded, hsecond]) (by decide) s
    rw [hlast]
    simp only [Canonical.unpacked, hpow]
    rfl

end Binary64

end DurableScript
