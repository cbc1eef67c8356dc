import DurableScript.Proofs.NearestDouble
import DurableScript.Proofs.Sameness
import DurableScript.Value.Number

namespace DurableScript

open Float.Model Float.Model.UnpackedFloat

namespace Binary64

theorem compare_swap : ∀ u v : UnpackedFloat, v.compare u = (u.compare v).map Ordering.swap
  | .notANumber, .notANumber | .notANumber, .infinity _ | .notANumber, .zero _ => rfl
  | .notANumber, .finite .. | .infinity _, .notANumber | .zero _, .notANumber => rfl
  | .finite .., .notANumber | .zero _, .zero _ => rfl
  | .infinity s, .infinity t => by cases s <;> cases t <;> rfl
  | .infinity s, .zero _ | .zero _, .infinity s => by cases s <;> rfl
  | .infinity s, .finite t .. | .finite t .., .infinity s => by cases s <;> cases t <;> rfl
  | .zero _, .finite s .. | .finite s .., .zero _ => by cases s <;> rfl
  | .finite s m e _, .finite t n f _ => by
    have hthen : (compare f e).then (compare n m) = ((compare e f).then (compare m n)).swap := by
      rw [Ordering.swap_then, ← Std.OrientedOrd.eq_swap, ← Std.OrientedOrd.eq_swap]
    cases s <;> cases t <;> simp [UnpackedFloat.compare, hthen]

theorem isNaN_unpack_pack {u : UnpackedFloat} (h : u.isNaN = false) :
    (Float.Model.pack u).unpack.isNaN = false := by
  have hpacked {s : Sign} {e : BitVec 11} {m : BitVec 52} (he : e ≠ -1#11) :
      (UnpackedFloat.unpack Format.binary64 (packComponents Format.binary64 s e m)).isNaN =
        false := by
    simp only [UnpackedFloat.unpack, unpackExponent_packComponents, if_neg he]
    split_ifs <;> rfl
  cases u with
  | notANumber => cases h
  | infinity s | zero s => cases s <;> rfl
  | finite s m e hm =>
    show (UnpackedFloat.unpack _ (UnpackedFloat.pack _ _)).isNaN = false
    unfold UnpackedFloat.pack
    dsimp only
    split
    · cases s <;> rfl
    · next hexp =>
      split
      · refine hpacked fun htop => ?_
        have hbits := congrArg BitVec.toNat htop
        simp only [BitVec.toNat_ofNat, Nat.not_le] at hbits hexp
        rw [Nat.mod_eq_of_lt (by omega)] at hbits
        simp at hbits
        omega
      · exact hpacked (by decide)

theorem isNaN_neg (x : Float) : x.neg.isNaN = x.isNaN := by
  show (Float.Model.pack x.toModel.unpack.neg).unpack.isNaN = x.toModel.unpack.isNaN
  cases x.toModel.unpack with
  | notANumber => rfl
  | infinity | zero | finite => exact isNaN_unpack_pack rfl

theorem isNaN_roundWithAccuracy (s : Sign) (m : Nat) (e : Int) (accuracy : Accuracy) :
    (roundWithAccuracy Format.binary64 s m e accuracy).isNaN = false := by
  unfold roundWithAccuracy
  dsimp only
  split <;> rfl

section Scaling

variable {u v : UnpackedFloat} {s : Sign} {m : Nat} {e : Int} {hm : 0 < m}

theorem isNaN_mul (hu : u.isNaN = false) (hv : v = .finite s m e hm) :
    (UnpackedFloat.mul Format.binary64 u v).isNaN = false := by
  subst hv
  cases u with
  | notANumber => cases hu
  | infinity | zero => rfl
  | finite => exact isNaN_roundWithAccuracy ..

theorem isNaN_div (hu : u.isNaN = false) (hv : v = .finite s m e hm) :
    (UnpackedFloat.div Format.binary64 u v).isNaN = false := by
  subst hv
  cases u with
  | notANumber => cases hu
  | infinity | zero => rfl
  | finite => exact isNaN_roundWithAccuracy ..

end Scaling

theorem isNaN_ofNat (n : Nat) : (UnpackedFloat.ofNat Format.binary64 n).isNaN = false := by
  unfold UnpackedFloat.ofNat UnpackedFloat.ofInt UnpackedFloat.normalize
  split
  · exact isNaN_roundWithAccuracy ..
  · rfl
  · exact isNaN_roundWithAccuracy ..

theorem isNaN_ofScientific (n : Nat) (k : Int) :
    (UnpackedFloat.ofScientific Format.binary64 n k).isNaN = false := by
  unfold UnpackedFloat.ofScientific
  split_ifs
  · rfl
  · rfl
  · rfl
  · exact isNaN_mul rfl rfl
  · exact isNaN_div rfl rfl

theorem isNaN_floatOfScientific (n : Nat) (negative : Bool) (k : Nat) :
    (Float.ofScientific n negative k).isNaN = false := by
  unfold Float.ofScientific
  split
  · next hfast =>
    have hword : n.toUInt64.toFloat.toModel.unpack.isNaN = false :=
      isNaN_unpack_pack (isNaN_ofNat n.toUInt64.toNat)
    obtain ⟨_, _, _, -, -, hpower⟩ := power_eq (Nat.lt_succ_of_le hfast.2)
    split
    · exact isNaN_unpack_pack (isNaN_div hword hpower)
    · exact isNaN_unpack_pack (isNaN_mul hword hpower)
  · exact isNaN_unpack_pack (isNaN_ofScientific n _)

end Binary64

open Binary64

namespace Decimal

theorem isNaN_nearest (digits : Nat) (exponent : Int) :
    (nearest digits exponent).isNaN = false := by
  unfold nearest
  dsimp only
  split_ifs
  · rfl
  · rfl
  · rfl
  · exact isNaN_floatOfScientific ..

variable {text : List Char} {x : Float}

theorem isNaN_readUnsigned (h : readUnsigned text = some x)
    (hword : text.map lower ≠ ['n', 'a', 'n']) : x.isNaN = false := by
  have hdigits {whole fraction rest : List Char}
      (h : (if (whole.isEmpty && fraction.isEmpty) = true then none
        else (readExponent rest).map fun exponent =>
          nearest (digitsValue (whole ++ fraction)) (exponent - Int.ofNat fraction.length)) =
        some x) : x.isNaN = false := by
    split at h
    · cases h
    · obtain ⟨exponent, -, rfl⟩ := Option.map_eq_some_iff.1 h
      exact isNaN_nearest ..
  unfold readUnsigned at h
  dsimp only at h
  split at h
  · cases h
    rfl
  · split at h
    · next hnan => exact absurd (String.ofList_injective hnan) hword
    · split at h <;> exact hdigits h

theorem isLetter_of_lower_eq {c : Char} (h : lower c = 'n') :
    (Number.isLetter c && c != 'e' && c != 'E') = true := by
  have hletter : Number.isLetter c = true := by
    unfold lower at h
    split at h
    · next hrange => simp [Number.isLetter, hrange]
    · rw [h]
      decide
  have hmark : c ≠ 'e' ∧ c ≠ 'E' := by
    constructor <;> rintro rfl <;> cases h
  simp [hletter, hmark]

theorem isNaN_read? (h : read? text = some x)
    (hletters : (text.any fun c => Number.isLetter c && c != 'e' && c != 'E') = false) :
    x.isNaN = false := by
  have hunsigned {rest : List Char} {y : Float} (hrest : rest ⊆ text)
      (hy : readUnsigned rest = some y) : y.isNaN = false := by
    refine isNaN_readUnsigned hy fun hword => ?_
    obtain ⟨c, hc, hlower⟩ := List.mem_map.1 (hword ▸ List.mem_cons_self : 'n' ∈ rest.map lower)
    exact List.any_eq_false.1 hletters c (hrest hc) (isLetter_of_lower_eq hlower)
  have hfound {found : Option Float} {fault : Fault}
      (hread : (found.elim (.error fault) .ok : Except Fault Float).toOption = some x) :
      found = some x := by
    cases found with
    | none => cases hread
    | some y => exact hread
  unfold read? read at h
  split at h
  · cases h
  · obtain ⟨y, hy, rfl⟩ := Option.map_eq_some_iff.1 (hfound h)
    rw [isNaN_neg]
    exact hunsigned (List.subset_cons_self ..) hy
  · exact hunsigned (List.subset_cons_self ..) (hfound h)
  · exact hunsigned (List.Subset.refl _) (hfound h)

end Decimal

namespace Number

theorem orderFloats_eq_compare (x y : Float) :
    orderFloats x y = x.toModel.unpack.compare y.toModel.unpack := by
  have hlt (x y : Float) : x < y ↔ x.toModel.unpack.compare y.toModel.unpack = some .lt := by
    show decide _ = true ↔ _
    rw [decide_eq_true_iff]
    exact beq_iff_eq
  have heq : (x == y) = (x.toModel.unpack.compare y.toModel.unpack == some .eq) := rfl
  have hgt : y < x ↔ x.toModel.unpack.compare y.toModel.unpack = some .gt := by
    rw [hlt, compare_swap]
    cases x.toModel.unpack.compare y.toModel.unpack with
    | none => simp
    | some ordering => cases ordering <;> simp
  simp only [orderFloats, hgt, hlt x y, heq]
  cases x.toModel.unpack.compare y.toModel.unpack with
  | none => rfl
  | some ordering => cases ordering <;> rfl

theorem orderFloats_swap (x y : Float) : orderFloats y x = (orderFloats x y).map Ordering.swap := by
  rw [orderFloats_eq_compare, orderFloats_eq_compare, compare_swap]

theorem orderFloats_eq_some_eq_iff {x y : Float} : orderFloats x y = some .eq ↔ (x == y) = true := by
  rw [orderFloats_eq_compare]
  exact beq_iff_eq.symm

theorem orderInts_swap (m n : Int64) : orderInts n m = (orderInts m n).swap :=
  Std.OrientedOrd.eq_swap

theorem orderInts_eq_eq_iff {m n : Int64} : orderInts m n = .eq ↔ m = n := by
  rw [orderInts, compare_eq_iff_eq, Int64.toInt_inj]

theorem order_swap : ∀ m n : Number, n.order m = (m.order n).map Ordering.swap
  | int m, int n => congrArg some (orderInts_swap m n)
  | int _, float _ | float _, int _ | float _, float _ => orderFloats_swap ..

theorem order_self_of_ofText? {s : String} {n : Number} (h : ofText? s = some n) :
    n.order n = some .eq := by
  unfold ofText? at h
  dsimp only at h
  split at h
  · cases h
    exact congrArg some (orderInts_eq_eq_iff.2 rfl)
  · split at h
    · cases h
    · next hletters =>
      obtain ⟨x, hx, rfl⟩ := Option.map_eq_some_iff.1 h
      have hnan := Decimal.isNaN_read? hx (Bool.eq_false_iff.2 hletters)
      exact orderFloats_eq_some_eq_iff.2 (Float.beq_self hnan)

end Number

end DurableScript
