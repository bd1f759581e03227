import Mathlib
import LoopScript.Decimal.Exact

/-!
The range of finite floats. The whole part of a finite float has a finite float of its own, and so
has every whole number that is less than half a gap above the largest one.
-/

namespace LoopScript.Decimal

open Float.Model Float.Model.UnpackedFloat

/-- The largest finite float. -/
def largest : Nat := 2 ^ 971 * (2 ^ 53 - 1)

/-- The least number that is nearer to the end of the range than to the largest finite float. -/
def limit : Nat := 2 ^ 970 * (2 ^ 54 - 1)

theorem largest_add_one_lt : largest + 1 < limit := by
  decide +kernel

/-- A finite float whose exponent is no larger than the bound. -/
def Within (bound : Int) : UnpackedFloat → Prop
  | .zero _ => True
  | .finite _ _ e _ => e ≤ bound
  | _ => False

section Bits

theorem biasedExponent_eq (x : Float) :
    biasedExponent x = (@unpackExponent .binary64 x.toModel.toBits.toBitVec).toNat := by
  simp only [biasedExponent, unpackExponent, Float.toBits, UInt64.toNat_and, UInt64.toNat_shiftRight,
    BitVec.toNat_cast, BitVec.extractLsb_toNat]
  exact Nat.and_two_pow_sub_one_eq_mod _ 11

theorem biasedExponent_lt (x : Float) : biasedExponent x < 2 ^ 11 :=
  biasedExponent_eq x ▸ BitVec.isLt _

theorem fraction_lt (x : Float) : fraction x < 2 ^ 52 := by
  have h : fraction x = x.toBits.toNat % 2 ^ 52 := Nat.and_two_pow_sub_one_eq_mod _ 52
  exact h ▸ Nat.mod_lt _ (Nat.two_pow_pos 52)

theorem classOf_eq_finite_iff (x : Float) : classOf x = .finite ↔ biasedExponent x ≤ 971 + 1075 := by
  have h := biasedExponent_lt x
  unfold classOf
  split
  · next hx => exact iff_of_true rfl (by omega)
  · next hx =>
    have hx : ¬ biasedExponent x ≤ 971 + 1075 := by omega
    split <;> exact iff_of_false nofun hx

theorem biasedExponent_pack {f : UnpackedFloat} {b : Nat} (h : Within b f) (hb : b ≤ 971) :
    biasedExponent (.ofModel (.pack f)) ≤ b + 1075 := by
  rw [biasedExponent_eq]
  change (unpackExponent (UnpackedFloat.pack Format.binary64 f)).toNat ≤ _
  cases f with
  | infinity s => exact h.elim
  | notANumber => exact h.elim
  | zero s =>
    simp only [UnpackedFloat.pack, packedZero, unpackExponent_packComponents]
    exact Nat.zero_le _
  | finite s m e hm =>
    have h : e ≤ b := h
    have he : (e + Format.binary64.exponentBias + Format.binary64.mantissaBitsWithoutImplicit).toNat
        ≤ b + 1075 := by
      change (e + 1023 + 52).toNat ≤ _
      omega
    have fits : ¬ 2 ^ Format.binary64.exponentBits ≤
        (e + Format.binary64.exponentBias + Format.binary64.mantissaBitsWithoutImplicit).toNat + 1 := by
      change ¬ 2048 ≤ _
      omega
    simp only [UnpackedFloat.pack]
    rw [if_neg fits]
    split
    · rw [unpackExponent_packComponents]
      exact (BitVec.toNat_ofNat _ _).trans_le ((Nat.mod_le _ _).trans he)
    · rw [unpackExponent_packComponents]
      exact Nat.zero_le _

theorem within_unpack {x : Float} {b : Nat} (h : biasedExponent x ≤ b + 1075) (hb : b ≤ 971) :
    Within b x.toModel.unpack := by
  rw [biasedExponent_eq] at h
  simp only [Float.Model.unpack, UnpackedFloat.unpack]
  split
  · next e =>
    rw [e] at h
    have full : (-1#11 : BitVec 11).toNat = 2047 := rfl
    omega
  · split
    · split
      · trivial
      · change _ - ((1023 : Int) + 52) + 1 ≤ _
        next e _ =>
        rw [e]
        have none : (0#11 : BitVec 11).toNat = 0 := rfl
        omega
    · change _ - ((1023 : Int) + 52) ≤ _
      omega

theorem mantissa_lt {x : Float} {s : Sign} {m : Nat} {e : Int} {hm : 0 < m}
    (h : x.toModel.unpack = .finite s m e hm) : m < 2 ^ 53 := by
  simp only [Float.Model.unpack, UnpackedFloat.unpack] at h
  split at h
  · split at h <;> cases h
  · split at h
    · split at h
      · cases h
      · cases h
        exact (BitVec.isLt _).trans (by decide)
    · cases h
      exact BitVec.isLt _

end Bits

section Rounding

theorem mantissa_shiftRight (em : ExtendedMantissa) (k : Nat) :
    (em >>> k).mantissa = em.mantissa / 2 ^ k := by
  induction k with
  | zero => exact (Nat.div_one _).symm
  | succ k ih =>
    change (em >>> k).mantissa / 2 = _
    rw [ih, Nat.div_div_eq_div_mul, Nat.pow_succ]

theorem roundBit_shiftRight (em : ExtendedMantissa) (k : Nat) :
    (em >>> (k + 1)).roundBit = (em.mantissa / 2 ^ k % 2 != 0) := by
  change ((em >>> k).mantissa % 2 != 0) = _
  rw [mantissa_shiftRight]

theorem roundedMantissa_le (em : ExtendedMantissa) : em.roundedMantissa ≤ em.mantissa + 1 := by
  obtain ⟨m, round, sticky⟩ := em
  cases round <;> cases sticky <;>
    simp only [ExtendedMantissa.roundedMantissa, ExtendedMantissa.accuracy,
      Accuracy.roundToNearestEven] <;> omega

theorem roundedMantissa_of_roundBit {em : ExtendedMantissa} (h : em.roundBit = false) :
    em.roundedMantissa = em.mantissa := by
  obtain ⟨m, round, sticky⟩ := em
  cases h
  cases sticky <;> rfl

theorem within_roundWithAccuracy (s : Sign) {m : Nat} {e : Int} {em : ExtendedMantissa} {e' : Int}
    {b : Nat} (h : shiftToTargetExponent Format.binary64 m e .exact = (em, e')) (he : e' ≤ b)
    (hr : totalExponent em.roundedMantissa e' ≤ b + 53) :
    Within b (roundWithAccuracy Format.binary64 s m e .exact) := by
  simp only [roundWithAccuracy, h]
  split
  · trivial
  · change _ + ((Format.binary64.targetExponent _ - e').toNat : Int) ≤ _
    simp only [Format.targetExponent]
    change e' + ((max (totalExponent em.roundedMantissa e' - 53) (-1074) - e').toNat : Int) ≤ b
    omega

theorem log2_le_of_lt {n k : Nat} (h : n < 2 ^ (k + 1)) : n.log2 ≤ k := by
  by_cases hn : n = 0
  · rw [hn, Nat.log2_zero]
    exact Nat.zero_le k
  · exact Nat.le_of_lt_succ ((Nat.log2_lt hn).mpr h)

theorem log2_mul_two_pow {n : Nat} (hn : n ≠ 0) (k : Nat) : (n * 2 ^ k).log2 = n.log2 + k := by
  obtain ⟨lo, hi⟩ := (Nat.log2_eq_iff hn).mp rfl
  apply (Nat.log2_eq_iff (Nat.mul_ne_zero hn (Nat.two_pow_pos k).ne')).mpr
  rw [Nat.add_right_comm, Nat.pow_add, Nat.pow_add]
  exact ⟨Nat.mul_le_mul_right _ lo, Nat.mul_lt_mul_of_pos_right hi (Nat.two_pow_pos k)⟩

theorem log2_roundedMantissa_le (em : ExtendedMantissa) (k : Nat) :
    (em >>> k).roundedMantissa.log2 ≤ em.mantissa.log2 + 1 - k := by
  have le := roundedMantissa_le (em >>> k)
  rw [mantissa_shiftRight] at le
  have small : em.mantissa / 2 ^ k < 2 ^ (em.mantissa.log2 + 1 - k) := by
    apply Nat.div_lt_of_lt_mul
    rw [← Nat.pow_add]
    exact Nat.lt_log2_self.trans_le (Nat.pow_le_pow_right Nat.two_pos (by omega))
  have pos := Nat.two_pow_pos (em.mantissa.log2 + 1 - k)
  apply log2_le_of_lt
  rw [Nat.pow_succ]
  omega

theorem within_of_totalExponent (s : Sign) {m : Nat} {e : Int} {b : Nat}
    (ht : totalExponent m e ≤ b + 52) (he : e < b) :
    Within b (roundWithAccuracy Format.binary64 s m e .exact) := by
  have target : Format.binary64.targetExponent (totalExponent m e) =
      max (totalExponent m e - 53) (-1074) := rfl
  refine within_roundWithAccuracy s rfl ?_ ?_
  · rw [target]
    omega
  · -- Rounding up adds one place at most.
    have log := log2_roundedMantissa_le (.ofMantissaAndAccuracy m .exact)
      (Format.binary64.targetExponent (totalExponent m e) - e).toNat
    rw [target] at log ⊢
    simp only [totalExponent] at ht log ⊢
    change _ ≤ m.log2 + 1 - _ at log
    omega

theorem roundedMantissa_of_lt_limit {m k : Nat} (h : m / 2 ^ k < 2 ^ 54 - 1) :
    (ExtendedMantissa.mk m false false >>> (k + 1)).roundedMantissa < 2 ^ 53 := by
  have half : m / 2 ^ (k + 1) = m / 2 ^ k / 2 := by rw [Nat.pow_succ, Nat.div_div_eq_div_mul]
  have le := roundedMantissa_le (ExtendedMantissa.mk m false false >>> (k + 1))
  rw [mantissa_shiftRight, half] at le
  -- Only an odd last place is rounded, and the largest mantissa is then out of reach.
  by_cases even : m / 2 ^ k % 2 = 0
  · rw [roundedMantissa_of_roundBit, mantissa_shiftRight, half]
    · omega
    · rw [roundBit_shiftRight, even]
      rfl
  · omega

theorem within_of_lt_limit {n : Nat} (hn : n < limit) :
    Within (971 : Nat) (roundWithAccuracy Format.binary64 .positive (n * 2 ^ 53) (-53) .exact) := by
  by_cases hz : n = 0
  · refine within_of_totalExponent .positive ?_ (by decide)
    rw [hz]
    decide
  have total : totalExponent (n * 2 ^ 53) (-53) = n.log2 + 1 := by
    rw [totalExponent, log2_mul_two_pow hz]
    omega
  by_cases hlog : n.log2 ≤ 1022
  · refine within_of_totalExponent .positive ?_ (by decide)
    omega
  · -- the last power of two before the end of the range
    have hlog : n.log2 = 1023 := by
      have lt : n < 2 ^ 1024 := hn.trans (by decide +kernel)
      have := (Nat.log2_lt hz).mpr lt
      omega
    have amount : (Format.binary64.targetExponent (totalExponent (n * 2 ^ 53) (-53)) - -53).toNat =
        1023 + 1 := by
      rw [total, hlog]
      rfl
    have last : n * 2 ^ 53 / 2 ^ 1023 < 2 ^ 54 - 1 := by
      rw [show (2 : Nat) ^ 1023 = 2 ^ 970 * 2 ^ 53 by decide +kernel,
        Nat.mul_div_mul_right n (2 ^ 970) (Nat.two_pow_pos 53)]
      exact Nat.div_lt_of_lt_mul hn
    have log : (ExtendedMantissa.ofMantissaAndAccuracy (n * 2 ^ 53) .exact >>>
        (1023 + 1)).roundedMantissa.log2 ≤ 52 :=
      log2_le_of_lt (roundedMantissa_of_lt_limit last)
    refine within_roundWithAccuracy .positive (by
      rw [shiftToTargetExponent, shiftToExponent, amount]
      rfl) (le_refl ((971 : Nat) : Int)) ?_
    rw [totalExponent]
    omega

end Rounding

section Numbers

theorem classOf_pack {f : UnpackedFloat} (h : Within (971 : Nat) f) :
    classOf (.ofModel (.pack f)) = .finite :=
  (classOf_eq_finite_iff _).mpr (biasedExponent_pack h (le_refl 971))

theorem within_ofUInt64 {n : UInt64} (hn : n.toNat < 2 ^ 53) :
    Within (2 : Nat) (UnpackedFloat.ofUInt64 Format.binary64 n) := by
  have log : n.toNat.log2 ≤ 52 := log2_le_of_lt hn
  simp only [UnpackedFloat.ofUInt64, UnpackedFloat.ofNat, UnpackedFloat.ofInt,
    UnpackedFloat.normalize]
  cases hc : compare (n.toNat : Int) 0 with
  | lt =>
    rw [Int.compare_eq_lt] at hc
    omega
  | eq => trivial
  | gt =>
    rw [Int.compare_eq_gt] at hc
    simp only [UnpackedFloat.round, decreaseExponent, Int.toNat_natCast]
    apply within_of_totalExponent
    · rw [totalExponent, Nat.shiftLeft_eq, log2_mul_two_pow (by omega)]
      omega
    · omega

theorem classOf_toFloat_mul_one {n : UInt64} (hn : n.toNat < 2 ^ 53) :
    classOf (n.toFloat * .ofBits 0x3FF0000000000000) = .finite := by
  have small : biasedExponent n.toFloat ≤ 2 + 1075 :=
    biasedExponent_pack (within_ofUInt64 hn) (by decide)
  have within := within_unpack small (by decide)
  -- The product with one is rounded again, by the same bound on its exponent.
  have one : (Float.ofBits 0x3FF0000000000000).toModel.unpack =
      .finite .positive (2 ^ 52) (-52) (Nat.two_pow_pos 52) := rfl
  change classOf (.ofModel (.pack (UnpackedFloat.mul Format.binary64 n.toFloat.toModel.unpack
    (Float.ofBits 0x3FF0000000000000).toModel.unpack))) = _
  apply classOf_pack
  rw [one]
  cases hu : n.toFloat.toModel.unpack with
  | infinity s => exact absurd (hu ▸ within) nofun
  | notANumber => exact absurd (hu ▸ within) nofun
  | zero s => trivial
  | finite s m e hm =>
    have log : m.log2 ≤ 52 := log2_le_of_lt (mantissa_lt hu)
    have he : e ≤ (2 : Nat) := by rwa [hu] at within
    apply within_of_totalExponent
    · rw [totalExponent, log2_mul_two_pow hm.ne']
      omega
    · omega

theorem ofScientific_zero {n : Nat} (hn : n ≠ 0) :
    UnpackedFloat.ofScientific Format.binary64 n 0 =
      roundWithAccuracy Format.binary64 .positive (n * 2 ^ 53) (-53) .exact := by
  have above : ¬ (0 : Int) > 2 ^ Format.binary64.exponentBits := by decide
  have below : ¬ (0 : Int) < -((2 ^ Format.binary64.exponentBits : Int) + n.log2) := by
    have pos : (0 : Int) < 2 ^ Format.binary64.exponentBits := by decide
    omega
  rw [UnpackedFloat.ofScientific, dif_neg hn, if_neg above, if_neg below, if_pos (le_refl 0),
    UnpackedFloat.mul, Nat.shiftLeft_eq]
  simp only [Int.toNat_zero, Nat.pow_zero, Nat.mul_one, Int.add_zero]
  rfl

theorem classOf_ofNat {n : Nat} (hn : n < limit) : classOf (Float.ofNat n) = .finite := by
  change classOf (Float.ofScientific n false 0) = _
  unfold Float.ofScientific
  split
  · next h =>
    have small : n.toUInt64.toNat < 2 ^ 53 := by
      change n % 2 ^ 64 < _
      omega
    exact classOf_toFloat_mul_one small
  · next h =>
    have hz : n ≠ 0 := by
      rintro rfl
      exact h ⟨Nat.two_pow_pos 53, by decide⟩
    have scientific := ofScientific_zero hz
    apply classOf_pack
    exact scientific ▸ within_of_lt_limit hn

theorem within_neg {f : UnpackedFloat} {b : Int} (h : Within b f) : Within b f.neg := by
  cases f <;> exact h

theorem classOf_neg {x : Float} (h : classOf x = .finite) : classOf (-x) = .finite := by
  apply classOf_pack
  exact within_neg (within_unpack ((classOf_eq_finite_iff x).mp h) (le_refl 971))

theorem ofInt?_isSome {i : Int} (h : i.natAbs < limit) : (ofInt? i).isSome = true := by
  have finite : classOf (Float.ofInt i) = .finite := by
    cases i with
    | ofNat n => exact classOf_ofNat h
    | negSucc n => exact classOf_neg (classOf_ofNat h)
  simp only [ofInt?, finite]
  rfl

theorem significand_natAbs (s : Scaled) : s.significand.natAbs = s.m := by
  unfold Scaled.significand
  split <;> omega

theorem natAbs_truncate_toRat_le (s : Scaled) :
    (truncate s.toRat).natAbs ≤ s.m * 2 ^ s.q.toNat := by
  simp only [truncate, Scaled.toRat, Nat.one_shiftLeft]
  split
  · calc (((s.significand * (2 ^ s.q.toNat : Nat) : Int) : Rat).num.tdiv
          ((s.significand * (2 ^ s.q.toNat : Nat) : Int) : Rat).den).natAbs
        ≤ (s.significand * (2 ^ s.q.toNat : Nat)).natAbs := Int.natAbs_tdiv_le_natAbs _ _
      _ = s.m * 2 ^ s.q.toNat := by
        rw [Int.natAbs_mul, significand_natAbs, Int.natAbs_natCast]
  · next hq =>
    have num : (mkRat s.significand (2 ^ (-s.q).toNat)).num.natAbs ≤ s.m := by
      rw [Rat.num_mkRat, if_neg (Nat.two_pow_pos _).ne', Int.natAbs_ediv_of_dvd]
      · rw [← significand_natAbs]
        exact Nat.div_le_self _ _
      · exact Int.natCast_dvd.mpr (Nat.gcd_dvd_right _ _)
    have one : s.q.toNat = 0 := by omega
    rw [one, Nat.pow_zero, Nat.mul_one]
    exact (Int.natAbs_tdiv_le_natAbs _ _).trans num

/-- The whole part of a finite float is no larger than the largest of them. -/
theorem natAbs_truncate_le {x : Float} (h : classOf x = .finite) :
    (truncate (exact x)).natAbs ≤ largest := by
  have hb := (classOf_eq_finite_iff x).mp h
  have hf := fraction_lt x
  have bound : (Scaled.ofFloat x).m ≤ 2 ^ 53 - 1 ∧ (Scaled.ofFloat x).q.toNat ≤ 971 := by
    simp only [Scaled.ofFloat, magnitude, leadingBit]
    split
    · exact ⟨Nat.le_sub_one_of_lt (hf.trans (by decide)), Nat.zero_le _⟩
    · constructor
      · change 2 ^ 52 + fraction x ≤ _
        omega
      · change ((biasedExponent x : Int) - 1075).toNat ≤ _
        omega
  calc (truncate (exact x)).natAbs
      ≤ (Scaled.ofFloat x).m * 2 ^ (Scaled.ofFloat x).q.toNat := natAbs_truncate_toRat_le _
    _ ≤ (2 ^ 53 - 1) * 2 ^ 971 :=
      Nat.mul_le_mul bound.1 (Nat.pow_le_pow_right Nat.two_pos bound.2)
    _ = largest := by decide +kernel

end Numbers

end LoopScript.Decimal
