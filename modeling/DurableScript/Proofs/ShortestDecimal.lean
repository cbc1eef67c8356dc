import DurableScript.Decimal.Shortest
import DurableScript.Proofs.NearestDouble

/-!
The shortest decimal of a double rounds to it. Main statement: `ofDyadic_rounds`. Whatever the
search finds on a grid is checked against the rounding interval, and at seventeen digits the grid is
too fine to miss it.
-/

namespace DurableScript

open Binary64

namespace ShortDecimal

def roundsTo (d : Dyadic) (place : Int) (n : Nat) : Bool :=
  let up := 2 ^ (d.exponent - 2).toNat * 10 ^ (-place).toNat
  let down := 2 ^ (2 - d.exponent).toNat * 10 ^ place.toNat
  let below := if d.mantissa = 2 ^ 52 ∧ -1074 < d.exponent then 1 else 2
  if d.mantissa % 2 = 0 then
    (4 * d.mantissa - below) * up ≤ n * down && n * down ≤ (4 * d.mantissa + 2) * up
  else (4 * d.mantissa - below) * up < n * down && n * down < (4 * d.mantissa + 2) * up

def gridFloor (d : Dyadic) (place : Int) : Nat :=
  4 * d.mantissa * (2 ^ (d.exponent - 2).toNat * 10 ^ (-place).toNat) /
    (2 ^ (2 - d.exponent).toNat * 10 ^ place.toNat)

theorem onGrid?_cases (d : Dyadic) (place : Int) :
    (∃ n, onGrid? d place = some n ∧ roundsTo d place n = true) ∨
      onGrid? d place = none ∧ roundsTo d place (gridFloor d place) = false ∧
        roundsTo d place (gridFloor d place + 1) = false := by
  generalize hfound : onGrid? d place = found
  simp only [onGrid?] at hfound
  split at hfound <;> subst hfound
  next hfloor hnext =>
    left
    refine ⟨_, rfl, ?_⟩
    split
    · exact hfloor
    · exact hnext
  next hfloor _ => exact .inl ⟨_, rfl, hfloor⟩
  next _ hnext => exact .inl ⟨_, rfl, hnext⟩
  next hfloor hnext => exact .inr ⟨rfl, hfloor, hnext⟩

variable {d : Dyadic} {place : Int}

theorem zpow_mul_pow_toNat {a : ℚ} (ha : a ≠ 0) (z : Int) :
    a ^ z * a ^ (-z).toNat = a ^ z.toNat := by
  rw [← zpow_natCast, ← zpow_natCast, ← zpow_add₀ ha]
  congr 1
  omega

theorem grid_scale (e place : Int) : (2 : ℚ) ^ (e - 2) * (2 ^ (2 - e).toNat * 10 ^ place.toNat) =
      2 ^ (e - 2).toNat * 10 ^ (-place).toNat * 10 ^ place := by
  have htwo := zpow_mul_pow_toNat (two_ne_zero (α := ℚ)) (e - 2)
  have hten := zpow_mul_pow_toNat (show (10 : ℚ) ≠ 0 by norm_num) place
  rw [neg_sub] at htwo
  rw [← htwo, ← hten]
  ring

theorem mul_le_mul_iff_of_scale {x y r s t u : ℚ} (hs : 0 < s) (hu : 0 < u)
    (h : r * s = t * u) : x * t ≤ y * s ↔ x * r ≤ y * u := by
  constructor
  · intro hle
    have := mul_le_mul_of_nonneg_right hle hu.le
    rw [mul_assoc, ← h] at this
    exact le_of_mul_le_mul_right (by linarith) hs
  · intro hle
    have := mul_le_mul_of_nonneg_right hle hs.le
    rw [mul_assoc, h] at this
    exact le_of_mul_le_mul_right (by linarith) hu

theorem le_grid_iff (e place : Int) (c n : Nat) :
    c * (2 ^ (e - 2).toNat * 10 ^ (-place).toNat) ≤ n * (2 ^ (2 - e).toNat * 10 ^ place.toNat) ↔
      (c : ℚ) * 2 ^ (e - 2) ≤ n * 10 ^ place := by
  rw [← mul_le_mul_iff_of_scale (by positivity) (by positivity) (grid_scale e place)]
  exact_mod_cast Iff.rfl

theorem grid_le_iff (e place : Int) (c n : Nat) :
    n * (2 ^ (2 - e).toNat * 10 ^ place.toNat) ≤ c * (2 ^ (e - 2).toNat * 10 ^ (-place).toNat) ↔
      (n : ℚ) * 10 ^ place ≤ c * 2 ^ (e - 2) := by
  have hscale := grid_scale e place
  rw [mul_comm, mul_comm _ ((10 : ℚ) ^ place)] at hscale
  rw [← mul_le_mul_iff_of_scale (by positivity) (by positivity) hscale.symm]
  exact_mod_cast Iff.rfl

theorem roundsTo_iff (hpos : 0 < d.mantissa) (n : Nat) :
    roundsTo d place n = true ↔ Rounds d.mantissa d.exponent (n * 10 ^ place) := by
  have hbelow : below d.mantissa d.exponent ≤ 4 * d.mantissa := by
    unfold below
    split <;> omega
  have hleast : ((4 * d.mantissa - below d.mantissa d.exponent : Nat) : ℚ) =
      4 * d.mantissa - below d.mantissa d.exponent := by
    rw [Nat.cast_sub hbelow]
    push_cast
    ring
  have hgreatest : ((4 * d.mantissa + 2 : Nat) : ℚ) = 4 * d.mantissa + 2 := by
    push_cast
    ring
  have hunfold : roundsTo d place n =
      if d.mantissa % 2 = 0 then
        decide ((4 * d.mantissa - below d.mantissa d.exponent) * _ ≤ n * _) &&
          decide (n * _ ≤ (4 * d.mantissa + 2) * _)
      else decide ((4 * d.mantissa - below d.mantissa d.exponent) * _ < n * _) &&
        decide (n * _ < (4 * d.mantissa + 2) * _) := rfl
  rw [hunfold]
  split
  case isTrue heven =>
    rw [Bool.and_eq_true, decide_eq_true_eq, decide_eq_true_eq, le_grid_iff, grid_le_iff, hleast,
      hgreatest]
    exact ⟨fun ⟨hlo, hhi⟩ => ⟨hlo, hhi, fun hodd => by omega⟩, fun h => ⟨h.least, h.greatest⟩⟩
  case isFalse hodd =>
    rw [Bool.and_eq_true, decide_eq_true_eq, decide_eq_true_eq, ← not_le, ← not_le, le_grid_iff,
      grid_le_iff, hleast, hgreatest, not_le, not_le]
    exact ⟨fun h => ⟨h.1.le, h.2.le, fun _ => h⟩, fun h => h.tie (by omega)⟩

theorem gridFloor_bounds (d : Dyadic) (place : Int) :
    (gridFloor d place : ℚ) * 10 ^ place ≤ d.mantissa * 2 ^ d.exponent ∧
      (d.mantissa : ℚ) * 2 ^ d.exponent < (gridFloor d place + 1 : Nat) * 10 ^ place := by
  have hdown : 0 < 2 ^ (2 - d.exponent).toNat * 10 ^ place.toNat := by positivity
  have hvalue : ((4 * d.mantissa : Nat) : ℚ) * 2 ^ (d.exponent - 2) =
      d.mantissa * 2 ^ d.exponent := by
    rw [two_zpow_sub_two]
    push_cast
    ring
  constructor
  · rw [← hvalue, ← grid_le_iff]
    exact Nat.div_mul_le_self _ _
  · rw [← hvalue, ← not_le, ← grid_le_iff, not_le]
    rw [Nat.mul_comm (gridFloor d place + 1)]
    exact Nat.lt_mul_div_succ _ hdown

theorem onGrid?_ne_none (hc : Canonical d.mantissa d.exponent)
    (hfine : (10 : ℚ) ^ (place + 16) ≤ d.mantissa * 2 ^ d.exponent) :
    ∃ n, onGrid? d place = some n ∧ roundsTo d place n = true := by
  rcases onGrid?_cases d place with h | ⟨-, hfloor, hnext⟩
  · exact h
  exfalso
  obtain ⟨hle, hlt⟩ := gridFloor_bounds d place
  have hself := rounds_self d.mantissa d.exponent
  -- Both points miss the interval, so that a step of the grid is wider than all of it.
  have hlow : (gridFloor d place : ℚ) * 10 ^ place ≤
      (4 * d.mantissa - below d.mantissa d.exponent) * 2 ^ (d.exponent - 2) := by
    by_contra hgt
    rw [not_le] at hgt
    have hrounds : Rounds d.mantissa d.exponent (gridFloor d place * 10 ^ place) :=
      ⟨hgt.le, hle.trans hself.greatest, fun hodd => ⟨hgt, hle.trans_lt (hself.tie hodd).2⟩⟩
    rw [(roundsTo_iff hc.pos _).mpr hrounds] at hfloor
    contradiction
  have hhigh : (4 * d.mantissa + 2) * (2 : ℚ) ^ (d.exponent - 2) ≤
      (gridFloor d place + 1 : Nat) * 10 ^ place := by
    by_contra hgt
    rw [not_le] at hgt
    have hrounds : Rounds d.mantissa d.exponent ((gridFloor d place + 1 : Nat) * 10 ^ place) :=
      ⟨hself.least.trans hlt.le, hgt.le, fun hodd => ⟨(hself.tie hodd).1.trans hlt, hgt⟩⟩
    rw [(roundsTo_iff hc.pos _).mpr hrounds] at hnext
    contradiction
  have hu := two_zpow_pos d.exponent
  have hstep : (10 : ℚ) ^ (place + 16) = 10 ^ place * 10 ^ 16 := by
    rw [zpow_add₀ (by norm_num), zpow_ofNat]
  rw [two_zpow_sub_two] at hlow hhigh
  rw [hstep] at hfine
  push_cast at hhigh
  have hm : (d.mantissa : ℚ) ≤ 2 ^ 53 := by exact_mod_cast hc.lt.le
  by_cases hpow : d.mantissa = 2 ^ 52 ∧ -1074 < d.exponent
  · have hb : below d.mantissa d.exponent = 1 := if_pos hpow
    have hm' : (d.mantissa : ℚ) = 2 ^ 52 := by exact_mod_cast hpow.1
    rw [hb] at hlow
    push_cast at hlow
    rw [hm'] at hfine
    linarith
  · have hb : below d.mantissa d.exponent = 2 := if_neg hpow
    rw [hb] at hlow
    push_cast at hlow
    nlinarith

theorem cast_whole_le (d : Dyadic) : (d.whole : ℚ) ≤ d.mantissa * 2 ^ d.exponent := by
  unfold Dyadic.whole
  rw [two_zpow_eq_div]
  split
  case isTrue hexp =>
    rw [show (-d.exponent).toNat = 0 by omega]
    push_cast
    simp
  case isFalse hexp =>
    rw [show d.exponent.toNat = 0 by omega, pow_zero, mul_one_div, le_div_iff₀ (by positivity)]
    exact_mod_cast Nat.div_mul_le_self _ _

def widened (d : Dyadic) : Dyadic := { d with mantissa := d.mantissa * 10 ^ 400 }

theorem leadingExponent_eq (d : Dyadic) :
    leadingExponent d = digitCount (widened d).whole - 401 := by
  simp only [leadingExponent, widened, Int.ofNat_eq_natCast]

theorem whole_pos (hc : Canonical d.mantissa d.exponent) : 0 < (widened d).whole := by
  have hm := hc.pos
  have hleast := hc.least
  unfold Dyadic.whole widened
  split
  · positivity
  · apply Nat.div_pos _ (by positivity)
    calc 2 ^ (-d.exponent).toNat ≤ 2 ^ 1074 := Nat.pow_le_pow_right two_pos (by omega)
      _ ≤ 1 * 10 ^ 400 := by decide +kernel
      _ ≤ d.mantissa * 10 ^ 400 := Nat.mul_le_mul_right _ hm

theorem ten_zpow_leadingExponent_le (hc : Canonical d.mantissa d.exponent) :
    (10 : ℚ) ^ leadingExponent d ≤ d.mantissa * 2 ^ d.exponent := by
  have hwhole := cast_whole_le (widened d)
  have hdigits : 10 ^ (digitCount (widened d).whole - 1) ≤ (widened d).whole :=
    pow_length_toDigits_le (whole_pos hc)
  have hlength : 0 < digitCount (widened d).whole := Nat.length_toDigits_pos
  rw [leadingExponent_eq]
  generalize (widened d).whole = whole at *
  generalize digitCount whole = count at *
  have hsplit : (10 : ℚ) ^ ((count : Int) - 401) * 10 ^ 400 = 10 ^ (count - 1) := by
    rw [← zpow_natCast, ← zpow_natCast, ← zpow_add₀ (by norm_num)]
    congr 1
    push_cast
    omega
  have hpower : (10 : ℚ) ^ (count - 1) ≤ whole := by exact_mod_cast hdigits
  have hall := hpower.trans hwhole
  simp only [widened, Nat.cast_mul, Nat.cast_pow, Nat.cast_ofNat] at hall
  rw [← hsplit, mul_right_comm] at hall
  exact le_of_mul_le_mul_right hall (by positivity)

def value (s : ShortDecimal) : ℚ := s.digits * 10 ^ s.exponent

theorem strip_spec (fuel : Nat) {s : ShortDecimal} (h : 0 < s.digits) :
    0 < (strip fuel s).digits ∧ (strip fuel s).value = s.value := by
  induction fuel generalizing s with
  | zero => exact ⟨h, rfl⟩
  | succ fuel ih =>
    unfold strip
    split
    case isTrue hzero =>
      have hdigits : 0 < s.digits / 10 := by omega
      obtain ⟨hpos, hvalue⟩ := ih (s := ⟨s.digits / 10, s.exponent + 1⟩) hdigits
      refine ⟨hpos, hvalue.trans ?_⟩
      have hten : (s.digits : ℚ) = (s.digits / 10 : Nat) * 10 := by
        exact_mod_cast (by omega : s.digits = s.digits / 10 * 10)
      simp only [value]
      rw [zpow_add_one₀ (by norm_num), hten]
      ring
    case isFalse => exact ⟨h, rfl⟩

theorem ofDyadic_rounds (hc : Canonical d.mantissa d.exponent) :
    0 < (ofDyadic d).digits ∧ Rounds d.mantissa d.exponent (ofDyadic d).value := by
  have hsound : ∀ {place : Int} {n : Nat}, onGrid? d place = some n →
      0 < n ∧ Rounds d.mantissa d.exponent (n * 10 ^ place) := by
    intro place n h
    rcases onGrid?_cases d place with ⟨n', h', hrounds⟩ | ⟨hnone, -⟩
    · rw [h, Option.some.injEq] at h'
      subst h'
      rw [roundsTo_iff hc.pos] at hrounds
      refine ⟨Nat.pos_of_ne_zero fun hzero => ?_, hrounds⟩
      have hpos := hrounds.pos hc
      rw [hzero, Nat.cast_zero, zero_mul] at hpos
      exact lt_irrefl _ hpos
    · rw [h] at hnone
      contradiction
  unfold ofDyadic
  simp only
  cases hfound : (List.range 17).findSome? fun more =>
      (onGrid? d (leadingExponent d - Int.ofNat more)).map fun n =>
        strip 20 ⟨n, leadingExponent d - Int.ofNat more⟩ with
  | none =>
    exfalso
    have hlast := List.findSome?_eq_none_iff.mp hfound 16 (by decide)
    have hfine : (10 : ℚ) ^ (leadingExponent d - Int.ofNat 16 + 16) ≤
        d.mantissa * 2 ^ d.exponent := by
      rw [show leadingExponent d - Int.ofNat 16 + 16 = leadingExponent d from sub_add_cancel ..]
      exact ten_zpow_leadingExponent_le hc
    obtain ⟨n, hn, -⟩ := onGrid?_ne_none hc hfine
    rw [hn] at hlast
    contradiction
  | some s =>
    obtain ⟨more, -, hmore⟩ := List.exists_of_findSome?_eq_some hfound
    obtain ⟨n, hn, rfl⟩ := Option.map_eq_some_iff.mp hmore
    obtain ⟨hpos, hrounds⟩ := hsound hn
    obtain ⟨hdigits, hvalue⟩ := strip_spec 20 (s := ⟨n, leadingExponent d - Int.ofNat more⟩) hpos
    rw [Option.getD_some, hvalue]
    exact ⟨hdigits, hrounds⟩

end ShortDecimal

end DurableScript
