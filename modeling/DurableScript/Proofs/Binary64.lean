import DurableScript.Decimal.Dyadic
import Mathlib

namespace DurableScript

open Float.Model Float.Model.UnpackedFloat

namespace Binary64

theorem unpackMantissa_toNat (b : BitVec Format.binary64.numBits) :
    (unpackMantissa b).toNat = b.toNat % 2 ^ 52 := by
  simp [unpackMantissa]

theorem unpackExponent_toNat (b : BitVec Format.binary64.numBits) :
    (unpackExponent b).toNat = b.toNat / 2 ^ 52 % 2 ^ 11 := by
  simp [unpackExponent, Nat.shiftRight_eq_div_pow]

theorem unpackSign_toNat (b : BitVec Format.binary64.numBits) :
    (unpackSign b).toNat = b.toNat / 2 ^ 63 := by
  have hb : b.toNat < 2 ^ 64 := b.isLt
  simp only [unpackSign, BitVec.toNat_cast, BitVec.extractLsb_toNat, Nat.shiftRight_eq_div_pow]
  omega

theorem packComponents_toNat (s : Sign) (e : BitVec 11) (m : BitVec 52) :
    (packComponents Format.binary64 s e m).toNat =
      s.toBitVec.toNat * 2 ^ 63 + e.toNat * 2 ^ 52 + m.toNat := by
  simp only [packComponents, BitVec.toNat_append]
  rw [← Nat.shiftLeft_add_eq_or_of_lt e.isLt, ← Nat.shiftLeft_add_eq_or_of_lt m.isLt]
  simp only [Nat.shiftLeft_eq]
  ring

@[simp] theorem toBitVec_ofBitVec (b : BitVec 1) : (Sign.ofBitVec b).toBitVec = b := by
  revert b
  decide

@[simp] theorem ofBitVec_toBitVec (s : Sign) : Sign.ofBitVec s.toBitVec = s := by
  cases s <;> rfl

theorem packComponents_unpack (b : BitVec Format.binary64.numBits) :
    packComponents Format.binary64 (Sign.ofBitVec (unpackSign b)) (unpackExponent b)
      (unpackMantissa b) = b := by
  have hb : b.toNat < 2 ^ 64 := b.isLt
  apply BitVec.eq_of_toNat_eq
  rw [packComponents_toNat, toBitVec_ofBitVec, unpackSign_toNat, unpackExponent_toNat,
    unpackMantissa_toNat]
  omega

theorem unpackSign_packComponents (s : Sign) (e : BitVec 11) (m : BitVec 52) :
    unpackSign (packComponents Format.binary64 s e m) = s.toBitVec := by
  have he := e.isLt
  have hm := m.isLt
  apply BitVec.eq_of_toNat_eq
  rw [unpackSign_toNat, packComponents_toNat]
  omega

theorem toNat_implicit_append (m : BitVec 52) : (1#1 ++ m).toNat = 2 ^ 52 + m.toNat := by
  rw [BitVec.toNat_append, ← Nat.shiftLeft_add_eq_or_of_lt m.isLt]
  rfl

theorem ofNat_implicit_append (m : BitVec 52) : BitVec.ofNat 52 (1#1 ++ m).toNat = m := by
  have hm := m.isLt
  apply BitVec.eq_of_toNat_eq
  rw [toNat_implicit_append, BitVec.toNat_ofNat]
  omega

/-- A mantissa of 53 bits stands behind a leading one, unless the exponent is the least. -/
structure Canonical (m : Nat) (e : Int) : Prop where
  pos : 0 < m
  lt : m < 2 ^ 53
  least : -1074 ≤ e
  greatest : e ≤ 971
  full : 2 ^ 52 ≤ m ∨ e = -1074

abbrev Canonical.unpacked {m : Nat} {e : Int} (h : Canonical m e) (s : Sign) : UnpackedFloat :=
  .finite s m e h.pos

theorem pack_finite {m : Nat} {e : Int} (h : Canonical m e) (s : Sign) :
    UnpackedFloat.pack Format.binary64 (h.unpacked s) =
      packComponents Format.binary64 s
        (if 2 ^ 52 ≤ m then BitVec.ofNat 11 (e + 1075).toNat else 0#11) (BitVec.ofNat 52 m) := by
  obtain ⟨hpos, hlt, hleast, hgreatest, -⟩ := h
  have hexp : (e + (Format.exponentBias Format.binary64 : Int) + (52 : Nat)).toNat =
      (e + 1075).toNat := by
    have : (Format.exponentBias Format.binary64 : Int) = 1023 := rfl
    omega
  have hbound : ¬ 2 ^ 11 ≤ (e + 1075).toNat + 1 := by omega
  have hlog : m.log2 + 1 = Format.binary64.mantissaBits ↔ 2 ^ 52 ≤ m := by
    have hbits : Format.binary64.mantissaBits = 53 := rfl
    have hupper : m.log2 < 53 := (Nat.log2_lt hpos.ne').mpr hlt
    rw [hbits, ← Nat.le_log2 hpos.ne']
    omega
  simp only [UnpackedFloat.pack, hexp, hbound, if_false, hlog]
  split <;> rfl

theorem unpack_pack {m : Nat} {e : Int} (h : Canonical m e) (s : Sign) :
    (Float.Model.pack (h.unpacked s)).unpack = h.unpacked s := by
  show UnpackedFloat.unpack Format.binary64 (UnpackedFloat.pack Format.binary64 _) = _
  rw [pack_finite h s]
  obtain ⟨hpos, hlt, hleast, hgreatest, hfull⟩ := h
  have hbias : (Format.exponentBias Format.binary64 : Int) = 1023 := rfl
  by_cases hm : 2 ^ 52 ≤ m
  · have hexp : (BitVec.ofNat 11 (e + 1075).toNat).toNat = (e + 1075).toNat := by
      rw [BitVec.toNat_ofNat, Nat.mod_eq_of_lt (by omega)]
    have hnotTop : BitVec.ofNat 11 (e + 1075).toNat ≠ -1#11 := by
      intro heq
      have := congrArg BitVec.toNat heq
      rw [hexp] at this
      have : (e + 1075).toNat = 2047 := this
      omega
    have hnotZero : BitVec.ofNat 11 (e + 1075).toNat ≠ 0#11 := by
      intro heq
      have := congrArg BitVec.toNat heq
      rw [hexp] at this
      have : (e + 1075).toNat = 0 := this
      omega
    have hmantissa : (1#1 ++ BitVec.ofNat 52 m).toNat = m := by
      rw [toNat_implicit_append, BitVec.toNat_ofNat]
      omega
    simp only [UnpackedFloat.unpack, unpackMantissa_packComponents, unpackExponent_packComponents,
      unpackSign_packComponents, ofBitVec_toBitVec, if_pos hm, if_neg hnotTop, if_neg hnotZero,
      hexp, hmantissa, hbias]
    congr 1
    omega
  · have hmantissa : (BitVec.ofNat 52 m).toNat = m := by
      rw [BitVec.toNat_ofNat]
      omega
    have hnotZero : BitVec.ofNat 52 m ≠ 0#52 := by
      intro heq
      have := congrArg BitVec.toNat heq
      rw [hmantissa] at this
      exact hpos.ne' this
    have hexp : e = -1074 := hfull.resolve_left hm
    simp only [UnpackedFloat.unpack, unpackMantissa_packComponents, unpackExponent_packComponents,
      unpackSign_packComponents, ofBitVec_toBitVec, if_neg hm, hmantissa, hbias]
    rw [if_neg (by decide), if_pos trivial, dif_neg hnotZero]
    subst hexp
    rfl

inductive Unpacks (b : BitVec Format.binary64.numBits) : UnpackedFloat → Prop where
  | infinity (hexp : unpackExponent b = -1#11) (hmant : unpackMantissa b = 0#52) :
      Unpacks b (.infinity (Sign.ofBitVec (unpackSign b)))
  | notANumber (hexp : unpackExponent b = -1#11) (hmant : unpackMantissa b ≠ 0#52) :
      Unpacks b .notANumber
  | zero (hexp : unpackExponent b = 0#11) (hmant : unpackMantissa b = 0#52) :
      Unpacks b (.zero (Sign.ofBitVec (unpackSign b)))
  | subnormal (hexp : unpackExponent b = 0#11)
      (h : Canonical (unpackMantissa b).toNat (-1074)) :
      Unpacks b (h.unpacked (Sign.ofBitVec (unpackSign b)))
  | normal (hexp : unpackExponent b ≠ 0#11)
      (h : Canonical (2 ^ 52 + (unpackMantissa b).toNat)
        ((unpackExponent b).toNat - 1075)) :
      Unpacks b (h.unpacked (Sign.ofBitVec (unpackSign b)))

theorem unpacks_unpack (b : BitVec Format.binary64.numBits) :
    Unpacks b (UnpackedFloat.unpack Format.binary64 b) := by
  have hmant : (unpackMantissa b).toNat < 2 ^ 52 := (unpackMantissa b).isLt
  have hexp : (unpackExponent b).toNat < 2 ^ 11 := (unpackExponent b).isLt
  have hbias : (Format.exponentBias Format.binary64 : Int) = 1023 := rfl
  unfold UnpackedFloat.unpack
  by_cases htop : unpackExponent b = -1#11
  · by_cases hzero : unpackMantissa b = 0#52
    · simp only [if_pos htop, if_pos hzero]
      exact .infinity htop hzero
    · simp only [if_pos htop, if_neg hzero]
      exact .notANumber htop hzero
  simp only [if_neg htop]
  by_cases hbottom : unpackExponent b = 0#11
  · by_cases hzero : unpackMantissa b = 0#52
    · simp only [if_pos hbottom, dif_pos hzero]
      exact .zero hbottom hzero
    · simp only [if_pos hbottom, dif_neg hzero]
      have hpos : 0 < (unpackMantissa b).toNat := by
        apply Nat.pos_of_ne_zero
        intro h
        exact hzero (BitVec.eq_of_toNat_eq h)
      have hleast : ((unpackExponent b).toNat : Int) -
          (Format.exponentBias Format.binary64 + (52 : Nat)) + 1 = -1074 := by
        rw [hbottom, hbias]
        rfl
      have h : Canonical (unpackMantissa b).toNat (-1074) :=
        ⟨hpos, by omega, le_refl _, by omega, .inr rfl⟩
      simp only [hleast]
      exact .subnormal hbottom h
  · simp only [if_neg hbottom, toNat_implicit_append]
    have hne : (unpackExponent b).toNat ≠ 0 := fun h => hbottom (BitVec.eq_of_toNat_eq h)
    have hne' : (unpackExponent b).toNat ≠ 2047 := fun h => htop (BitVec.eq_of_toNat_eq h)
    have hexponent : ((unpackExponent b).toNat : Int) -
        (Format.exponentBias Format.binary64 + (52 : Nat)) = (unpackExponent b).toNat - 1075 := by
      rw [hbias]
      omega
    have h : Canonical (2 ^ 52 + (unpackMantissa b).toNat) ((unpackExponent b).toNat - 1075) :=
      ⟨by omega, by omega, by omega, by omega, .inl (by omega)⟩
    simp only [hexponent]
    exact .normal hbottom h

theorem Unpacks.pack_eq {b : BitVec Format.binary64.numBits} {u : UnpackedFloat}
    (hu : Unpacks b u) (valid : Format.binary64.Valid b) :
    UnpackedFloat.pack Format.binary64 u = b := by
  have hsplit := packComponents_unpack b
  cases hu with
  | infinity hexp hmant | zero hexp hmant =>
    rw [hexp, hmant] at hsplit
    exact hsplit
  | notANumber hexp hmant => exact (valid.eq_packedNaN hexp hmant).symm
  | subnormal hexp h =>
    have hlt := (unpackMantissa b).isLt
    rw [pack_finite h, if_neg (Nat.not_le.mpr hlt), BitVec.ofNat_toNat, BitVec.setWidth_eq,
      ← hexp, hsplit]
  | normal hexp h =>
    have hsum : ((((unpackExponent b).toNat : Int) - 1075) + 1075).toNat =
        (unpackExponent b).toNat := by omega
    rw [pack_finite h, if_pos (Nat.le_add_right _ _), hsum, ← toNat_implicit_append,
      ofNat_implicit_append, BitVec.ofNat_toNat, BitVec.setWidth_eq, hsplit]

theorem pack_unpack (f : Float.Model) : Float.Model.pack f.unpack = f := by
  obtain ⟨bits, valid⟩ := f
  have h := (unpacks_unpack bits.toBitVec).pack_eq valid
  simp only [Float.Model.pack, Float.Model.unpack, h, UInt64.ofBitVec_toBitVec]

theorem ofModel_pack_unpack (x : Float) :
    Float.ofModel (Float.Model.pack x.toModel.unpack) = x := by
  rw [pack_unpack]

theorem ofBits_toBits (x : Float) : Float.ofBits x.toBits = x := ofModel_pack_unpack x

def sign (d : Dyadic) : Sign := if d.negative then .negative else .positive

def bits (x : Float) : BitVec Format.binary64.numBits := x.toBits.toBitVec

theorem ofBitVec_eq_sign (x : Float) : Sign.ofBitVec (unpackSign (bits x)) = sign (.ofFloat x) := by
  have hnat : (unpackSign (bits x)).toNat = x.toBits.toNat / 2 ^ 63 := unpackSign_toNat _
  have hlt : (unpackSign (bits x)).toNat < 2 := (unpackSign (bits x)).isLt
  have hzero : unpackSign (bits x) = 0#1 ↔ (unpackSign (bits x)).toNat = 0 :=
    ⟨fun h => by rw [h]; rfl, fun h => BitVec.eq_of_toNat_eq h⟩
  simp only [Sign.ofBitVec, sign, Dyadic.ofFloat, hzero, beq_iff_eq, ← hnat]
  split <;> split <;> first | rfl | omega

theorem ofFloat_mantissa (x : Float) : (Dyadic.ofFloat x).mantissa =
      if (unpackExponent (bits x)).toNat = 0 then (unpackMantissa (bits x)).toNat
      else 2 ^ 52 + (unpackMantissa (bits x)).toNat := by
  rw [unpackExponent_toNat, unpackMantissa_toNat]
  rfl

theorem ofFloat_exponent (x : Float) :
    (Dyadic.ofFloat x).exponent = (max (unpackExponent (bits x)).toNat 1 : Nat) - 1075 := by
  rw [unpackExponent_toNat]
  rfl

theorem unpack_cases (x : Float) : x.toModel.unpack = .notANumber ∨
    x.toModel.unpack = .infinity (sign (.ofFloat x)) ∨
    x.toModel.unpack = .zero (sign (.ofFloat x)) ∧ (Dyadic.ofFloat x).mantissa = 0 ∨
    ∃ h : Canonical (Dyadic.ofFloat x).mantissa (Dyadic.ofFloat x).exponent,
      x.toModel.unpack = h.unpacked (sign (.ofFloat x)) := by
  have hu := unpacks_unpack (bits x)
  have hm := ofFloat_mantissa x
  have he := ofFloat_exponent x
  have hmodel : x.toModel.unpack = UnpackedFloat.unpack Format.binary64 (bits x) := rfl
  rw [hmodel, ← ofBitVec_eq_sign]
  generalize UnpackedFloat.unpack Format.binary64 (bits x) = u at hu
  cases hu with
  | infinity hexp hmant => exact .inr (.inl rfl)
  | notANumber hexp hmant => exact .inl rfl
  | zero hexp hmant =>
    rw [hexp, hmant] at hm
    exact .inr (.inr (.inl ⟨rfl, hm⟩))
  | subnormal hexp h =>
    rw [hexp] at hm he
    have hm' : (Dyadic.ofFloat x).mantissa = (unpackMantissa (bits x)).toNat := hm
    have he' : (Dyadic.ofFloat x).exponent = -1074 := he
    refine .inr (.inr (.inr ⟨by rw [hm', he']; exact h, ?_⟩))
    simp only [Canonical.unpacked, hm', he']
  | normal hexp h =>
    have hne : (unpackExponent (bits x)).toNat ≠ 0 :=
      fun hzero => hexp (BitVec.eq_of_toNat_eq hzero)
    rw [if_neg hne] at hm
    rw [max_eq_left (Nat.pos_of_ne_zero hne)] at he
    refine .inr (.inr (.inr ⟨by rw [hm, he]; exact h, ?_⟩))
    simp only [Canonical.unpacked, hm, he]

end Binary64

end DurableScript
