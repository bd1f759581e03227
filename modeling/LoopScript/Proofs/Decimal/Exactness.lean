import LoopScript.Proofs.Decimal.Order
import LoopScript.Proofs.Decimal.Range

/-!
Whole numbers as floats. A whole number of no more bits than a significand has is a float itself, and the
float nearest to a larger one is no smaller than the first of those that have a bit more.
-/

namespace LoopScript.Decimal

open Float.Model Float.Model.UnpackedFloat

theorem Scaled.toRat_eq_value (s : Scaled) : s.toRat = s.value := by
  unfold toRat value
  split
  · next h =>
    rw [Nat.one_shiftLeft]
    push_cast
    rw [← zpow_natCast, Int.toNat_of_nonneg h]
  · next h =>
    have exponent : s.q = -((-s.q).toNat : Int) := by omega
    rw [Nat.one_shiftLeft, Rat.mkRat_eq_div, exponent, zpow_neg, zpow_natCast, div_eq_mul_inv]
    push_cast
    rw [neg_neg, Int.toNat_natCast]

theorem isWhole_iff {r : ℚ} {z : Int} : isWhole r = true ∧ r.num = z ↔ r = z := by
  rw [isWhole, beq_iff_eq]
  constructor
  · rintro ⟨den, num⟩
    rw [← num, Rat.coe_int_num_of_den_eq_one den]
  · rintro rfl
    exact ⟨Rat.den_intCast z, Rat.num_intCast z⟩

section Full

variable {s : Sign} {m : Nat} {e : Int} {hm : 0 < m}

/-- A number that needs every bit of a significand. -/
structure Full (m : Nat) (e : Int) : Prop where
  bits : m.log2 = 52
  low : -1074 ≤ e

theorem Full.pos (h : Full m e) : 0 < m := by
  apply Nat.pos_of_ne_zero
  rintro rfl
  exact absurd h.bits (by decide)

theorem Full.mod (h : Full m e) : m = 2 ^ 52 + m % 2 ^ 52 := by
  obtain ⟨lo, hi⟩ := (Nat.log2_eq_iff h.pos.ne').mp h.bits
  omega

theorem pack_full (h : Full m e) (high : e ≤ 971) : UnpackedFloat.pack Format.binary64 (.finite s m e hm) =
    packComponents Format.binary64 s (BitVec.ofNat 11 (e + 1075).toNat) (BitVec.ofNat 52 m) := by
  have exponent : (e + Format.binary64.exponentBias +
      Format.binary64.mantissaBitsWithoutImplicit).toNat = (e + 1075).toNat := by
    change (e + 1023 + 52).toNat = _
    omega
  have fits : ¬ 2 ^ Format.binary64.exponentBits ≤ (e + 1075).toNat + 1 := by
    change ¬ 2048 ≤ _
    omega
  simp only [UnpackedFloat.pack, exponent]
  rw [if_neg fits, if_pos (by rw [h.bits]; rfl)]

theorem unpackSign_packComponents (s : Sign) (x : BitVec 11) (y : BitVec 52) :
    unpackSign (packComponents Format.binary64 s x y) = s.toBitVec := by
  change (s.toBitVec ++ x ++ y).extractLsb' 63 1 = _
  rw [BitVec.extractLsb'_append_eq_of_le (by decide), BitVec.extractLsb'_append_eq_of_le (by decide)]
  exact BitVec.extractLsb'_eq_self

theorem ofBitVec_toBitVec (s : Sign) : Sign.ofBitVec s.toBitVec = s := by
  cases s <;> rfl

theorem toNat_exponent (high : e ≤ 971) :
    (BitVec.ofNat 11 (e + 1075).toNat).toNat = (e + 1075).toNat := by
  rw [BitVec.toNat_ofNat, Nat.mod_eq_of_lt (by omega)]

theorem unpack_pack (h : Full m e) (high : e ≤ 971) :
    UnpackedFloat.unpack Format.binary64 (UnpackedFloat.pack Format.binary64 (.finite s m e hm)) =
      .finite s m e hm := by
  have low := h.low
  have exponent := toNat_exponent high
  have inside : BitVec.ofNat 11 (e + 1075).toNat ≠ -1#11 := by
    intro same
    rw [same] at exponent
    change 2047 = _ at exponent
    omega
  have above : BitVec.ofNat 11 (e + 1075).toNat ≠ 0#11 := by
    intro same
    rw [same] at exponent
    change 0 = _ at exponent
    omega
  have significand : (1#1 ++ BitVec.ofNat 52 m).toNat = m := by
    rw [BitVec.toNat_append, BitVec.toNat_ofNat, BitVec.toNat_ofNat,
      ← Nat.shiftLeft_add_eq_or_of_lt (Nat.mod_lt _ (Nat.two_pow_pos 52))]
    exact h.mod.symm
  rw [pack_full h high]
  simp only [UnpackedFloat.unpack, unpackMantissa_packComponents, unpackExponent_packComponents,
    unpackSign_packComponents, ofBitVec_toBitVec]
  rw [if_neg inside, if_neg above]
  congr 1
  change _ - ((1023 : Int) + 52) = e
  omega

theorem fraction_eq (x : Float) :
    fraction x = (@unpackMantissa .binary64 x.toModel.toBits.toBitVec).toNat := by
  simp only [fraction, unpackMantissa, Float.toBits, UInt64.toNat_and, BitVec.toNat_cast,
    BitVec.extractLsb_toNat, Nat.shiftRight_zero]
  exact Nat.and_two_pow_sub_one_eq_mod _ 52

theorem isNegative_eq (x : Float) :
    isNegative x = (@unpackSign .binary64 x.toModel.toBits.toBitVec == 1#1) := by
  have bit : (x.toBits >>> 63).toNat = (@unpackSign .binary64 x.toModel.toBits.toBitVec).toNat := by
    simp only [unpackSign, Float.toBits, UInt64.toNat_shiftRight, BitVec.toNat_cast,
      BitVec.extractLsb_toNat]
    have bits := x.toModel.toBits.toNat_lt
    have amount : UInt64.toNat 63 % 64 = 63 := rfl
    rw [amount, Nat.shiftRight_eq_div_pow]
    change _ = x.toModel.toBits.toNat >>> 63 % 2 ^ 1
    rw [Nat.shiftRight_eq_div_pow]
    omega
  rw [isNegative, Bool.eq_iff_iff, beq_iff_eq, beq_iff_eq, ← UInt64.toNat_inj, bit, ← BitVec.toNat_inj]
  rfl

/-- A number with a full significand is exactly that significand at its exponent. -/
theorem exact_pack (h : Full m e) (high : e ≤ 971) :
    exact (.ofModel (.pack (.finite s m e hm))) = s.apply m * (2 : ℚ) ^ e := by
  have low := h.low
  have sign : isNegative (.ofModel (.pack (.finite s m e hm))) = (s == .negative) := by
    rw [isNegative_eq]
    change (unpackSign (UnpackedFloat.pack Format.binary64 (.finite s m e hm)) == _) = _
    rw [pack_full h high, unpackSign_packComponents]
    cases s <;> rfl
  have exponent : biasedExponent (.ofModel (.pack (.finite s m e hm))) = (e + 1075).toNat := by
    rw [biasedExponent_eq]
    change (unpackExponent (UnpackedFloat.pack Format.binary64 (.finite s m e hm))).toNat = _
    rw [pack_full h high, unpackExponent_packComponents, toNat_exponent high]
  have rest : fraction (.ofModel (.pack (.finite s m e hm))) = m % 2 ^ 52 := by
    rw [fraction_eq]
    change (unpackMantissa (UnpackedFloat.pack Format.binary64 (.finite s m e hm))).toNat = _
    rw [pack_full h high, unpackMantissa_packComponents]
    exact BitVec.toNat_ofNat _ _
  have size : (magnitude (.ofModel (.pack (.finite s m e hm)))).m = m ∧
      (magnitude (.ofModel (.pack (.finite s m e hm)))).q = e := by
    rw [magnitude, exponent, rest, if_neg (by omega)]
    constructor
    · exact h.mod.symm
    · change ((e + 1075).toNat : Int) - 1075 = e
      omega
  rw [exact, Scaled.toRat_eq_value, Scaled.value, Scaled.significand, Scaled.ofFloat, sign, size.1,
    size.2]
  cases s <;> rfl

end Full

section Rounding

variable {s : Sign} {m n : Nat} {e : Int}

theorem mk_mul_shiftRight (m k : Nat) :
    ExtendedMantissa.mk (m * 2 ^ k) false false >>> k = ⟨m, false, false⟩ := by
  induction k generalizing m with
  | zero => rw [Nat.pow_zero, Nat.mul_one]; rfl
  | succ k ih =>
    have shifted := ih (m * 2)
    rw [Nat.mul_assoc, ← Nat.pow_succ'] at shifted
    change ExtendedMantissa.shiftRightOne (ExtendedMantissa.mk _ false false >>> k) = _
    rw [shifted, ExtendedMantissa.shiftRightOne]
    simp

theorem shiftToTargetExponent_full (h : Full m e) (k : Nat) :
    shiftToTargetExponent Format.binary64 (m * 2 ^ k) (e - k) .exact = (⟨m, false, false⟩, e) := by
  have low := h.low
  have target : Format.binary64.targetExponent (totalExponent (m * 2 ^ k) (e - k)) = e := by
    rw [totalExponent, log2_mul_two_pow h.pos.ne', h.bits]
    change max (_ - 53) (-1074) = e
    omega
  have amount : (e - (e - k)).toNat = k := by omega
  rw [shiftToTargetExponent, shiftToExponent, target, amount]
  refine Prod.ext (mk_mul_shiftRight m k) ?_
  change e - k + k = e
  omega

theorem roundWithAccuracy_full (h : Full m e) (k : Nat) :
    roundWithAccuracy Format.binary64 s (m * 2 ^ k) (e - k) .exact = .finite s m e h.pos := by
  have again := shiftToTargetExponent_full h 0
  rw [Nat.pow_zero, Nat.mul_one, Nat.cast_zero, Int.sub_zero] at again
  have rounded : (ExtendedMantissa.mk m false false).roundedMantissa = m := rfl
  simp only [roundWithAccuracy, shiftToTargetExponent_full h k, rounded, again]
  exact dif_neg h.pos.ne'

theorem ofUInt64_full {n : UInt64} (hz : 0 < n.toNat) {k : Nat} (h : Full (n.toNat * 2 ^ k) (-k)) :
    UnpackedFloat.ofUInt64 Format.binary64 n =
      .finite .positive (n.toNat * 2 ^ k) (-k) h.pos := by
  have bits := h.bits
  rw [log2_mul_two_pow hz.ne'] at bits
  have target : Format.binary64.targetExponent (totalExponent n.toNat 0) = -k := by
    rw [totalExponent]
    change max (_ - 53) (-1074) = _
    omega
  have amount : (- -(k : Int)).toNat = k := by omega
  have positive : compare (n.toNat : Int) 0 = .gt := Int.compare_eq_gt.mpr (by omega)
  have rounded := roundWithAccuracy_full (s := .positive) h 0
  rw [Nat.pow_zero, Nat.mul_one, Nat.cast_zero, Int.sub_zero] at rounded
  simp only [UnpackedFloat.ofUInt64, UnpackedFloat.ofNat, UnpackedFloat.ofInt,
    UnpackedFloat.normalize, positive, UnpackedFloat.round, Int.toNat_natCast, target,
    decreaseExponent, amount, Nat.shiftLeft_eq, Int.zero_sub]
  exact rounded

theorem toFloat_mul_one {n : UInt64} (hz : 0 < n.toNat) {k : Nat}
    (h : Full (n.toNat * 2 ^ k) (-k)) : n.toFloat * .ofBits 0x3FF0000000000000 =
      .ofModel (.pack (.finite .positive (n.toNat * 2 ^ k) (-k) h.pos)) := by
  have one : (Float.ofBits 0x3FF0000000000000).toModel.unpack =
      .finite .positive (2 ^ 52) (-52) (Nat.two_pow_pos 52) := rfl
  have number : n.toFloat.toModel.unpack = .finite .positive (n.toNat * 2 ^ k) (-k) h.pos := by
    change UnpackedFloat.unpack _ (UnpackedFloat.pack _ (UnpackedFloat.ofUInt64 _ n)) = _
    rw [ofUInt64_full hz h, unpack_pack h (by omega)]
  change Float.ofModel (.pack (UnpackedFloat.mul Format.binary64 n.toFloat.toModel.unpack
    (Float.ofBits 0x3FF0000000000000).toModel.unpack)) = _
  rw [one, number]
  exact congrArg (fun f => Float.ofModel (.pack f)) (roundWithAccuracy_full (s := .positive) h 52)

theorem ofNat_small (hz : 0 < n) (hn : n < 2 ^ 53) : ∃ k : Nat, ∃ h : Full (n * 2 ^ k) (-k),
    Float.ofNat n = .ofModel (.pack (.finite .positive (n * 2 ^ k) (-k) h.pos)) := by
  have small : n.toUInt64.toNat = n := Nat.mod_eq_of_lt (by omega)
  have fast : Float.ofNat n = n.toUInt64.toFloat * .ofBits 0x3FF0000000000000 := by
    change Float.ofScientific n false 0 = _
    exact dif_pos ⟨hn, by decide⟩
  have log : n.log2 ≤ 52 := log2_le_of_lt hn
  obtain ⟨k, hk⟩ := Nat.exists_eq_add_of_le log
  have full : Full (n * 2 ^ k) (-k) := by
    constructor
    · rw [log2_mul_two_pow hz.ne', ← hk]
    · omega
  have product := toFloat_mul_one (n := n.toUInt64) (k := k) (by omega) (small.symm ▸ full)
  refine ⟨k, full, fast.trans (product.trans ?_)⟩
  simp only [small]

theorem le_roundedMantissa (em : ExtendedMantissa) : em.mantissa ≤ em.roundedMantissa := by
  obtain ⟨m, round, sticky⟩ := em
  cases round <;> cases sticky <;>
    simp only [ExtendedMantissa.roundedMantissa, ExtendedMantissa.accuracy,
      Accuracy.roundToNearestEven] <;> omega

/-- A number with more bits than a significand has is rounded to one that is a multiple of two. -/
theorem roundWithAccuracy_large (hn : 2 ^ 53 ≤ n) :
    ∃ m e, ∃ h : Full m e, 1 ≤ e ∧
      roundWithAccuracy Format.binary64 .positive (n * 2 ^ 53) (-53) .exact =
        .finite .positive m e h.pos := by
  have hz : n ≠ 0 := by omega
  have log : 53 ≤ n.log2 := (Nat.le_log2 hz).mpr hn
  obtain ⟨lo, hi⟩ := (Nat.log2_eq_iff hz).mp rfl
  obtain ⟨k, hk⟩ := Nat.exists_eq_add_of_le log
  have target : Format.binary64.targetExponent (totalExponent (n * 2 ^ 53) (-53)) = k + 1 := by
    rw [totalExponent, log2_mul_two_pow hz]
    change max (_ - 53) (-1074) = _
    omega
  have amount : ((k + 1 : Int) - -53).toNat = k + 1 + 53 := by omega
  have first : shiftToTargetExponent Format.binary64 (n * 2 ^ 53) (-53) .exact =
      (ExtendedMantissa.mk (n * 2 ^ 53) false false >>> (k + 1 + 53), (k + 1 : Int)) := by
    rw [shiftToTargetExponent, shiftToExponent, target, amount]
    refine Prod.ext rfl ?_
    change (-53 : Int) + (k + 1 + 53 : Nat) = k + 1
    omega
  generalize hem : ExtendedMantissa.mk (n * 2 ^ 53) false false >>> (k + 1 + 53) = em at first
  have quotient : em.mantissa = n / 2 ^ (k + 1) := by
    rw [← hem, mantissa_shiftRight, Nat.pow_add _ (k + 1) 53]
    exact Nat.mul_div_mul_right n _ (Nat.two_pow_pos 53)
  have least : 2 ^ 52 ≤ em.mantissa := by
    rw [quotient, Nat.le_div_iff_mul_le (Nat.two_pow_pos _), ← Nat.pow_add]
    exact (Nat.pow_le_pow_right Nat.two_pos (by omega)).trans lo
  have most : em.mantissa < 2 ^ 53 := by
    rw [quotient, Nat.div_lt_iff_lt_mul (Nat.two_pow_pos _), ← Nat.pow_add]
    exact hi.trans_le (Nat.pow_le_pow_right Nat.two_pos (by omega))
  have above := le_roundedMantissa em
  have below := roundedMantissa_le em
  simp only [roundWithAccuracy, first]
  by_cases carry : em.roundedMantissa < 2 ^ 53
  · have full : Full em.roundedMantissa (k + 1) := by
      constructor
      · exact (Nat.log2_eq_iff (by omega)).mpr ⟨by omega, carry⟩
      · omega
    have second := shiftToTargetExponent_full full 0
    rw [Nat.pow_zero, Nat.mul_one, Nat.cast_zero, Int.sub_zero] at second
    refine ⟨_, _, full, by omega, ?_⟩
    simp only [second]
    exact dif_neg full.pos.ne'
  · -- rounding up has made one bit more
    have full : Full (2 ^ 52) (k + 1 + 1) := ⟨by decide, by omega⟩
    have second := shiftToTargetExponent_full full 1
    have power : em.roundedMantissa = 2 ^ 52 * 2 ^ 1 := by omega
    have exponent : (k + 1 + 1 : Int) - (1 : Nat) = k + 1 := by omega
    rw [← power, exponent] at second
    refine ⟨_, _, full, by omega, ?_⟩
    simp only [second]
    exact dif_neg full.pos.ne'

theorem ofNat_large (hn : 2 ^ 53 ≤ n) : ∃ m e, ∃ h : Full m e, 1 ≤ e ∧
    Float.ofNat n = .ofModel (.pack (.finite .positive m e h.pos)) := by
  obtain ⟨m, e, full, he, rounded⟩ := roundWithAccuracy_large hn
  refine ⟨m, e, full, he, ?_⟩
  have slow : Float.ofNat n = .ofModel (.pack (UnpackedFloat.ofScientific Format.binary64 n 0)) := by
    change Float.ofScientific n false 0 = _
    exact dif_neg fun h => by omega
  rw [slow, ofScientific_zero (by omega), rounded]

end Rounding

section Integers

variable {s : Sign} {m : Nat} {e : Int}

/-- Without a number to its exponent, a float is infinite. -/
theorem pack_infinite (h : Full m e) (large : 971 < e) :
    Float.ofModel (.pack (.finite s m e h.pos)) = .ofModel (.pack (.infinity s)) := by
  have overflow : 2 ^ Format.binary64.exponentBits ≤ (e + Format.binary64.exponentBias +
      Format.binary64.mantissaBitsWithoutImplicit).toNat + 1 := by
    change 2048 ≤ (e + 1023 + 52).toNat + 1
    omega
  have same : UnpackedFloat.pack Format.binary64 (.finite s m e h.pos) =
      UnpackedFloat.pack Format.binary64 (.infinity s) := by
    simp only [UnpackedFloat.pack]
    exact if_pos overflow
  simp only [Float.Model.pack, same]

theorem neg_pack (h : Full m e) (high : e ≤ 971) :
    -Float.ofModel (.pack (.finite s m e h.pos)) = .ofModel (.pack (.finite (-s) m e h.pos)) := by
  change Float.ofModel (.pack (UnpackedFloat.neg (UnpackedFloat.unpack Format.binary64
    (UnpackedFloat.pack Format.binary64 (.finite s m e h.pos))))) = _
  rw [unpack_pack h high]
  rfl

variable {i : Int}

theorem exact_ofInt_of_full (h : Full m e) (high : e ≤ 971)
    (number : Float.ofNat i.natAbs = .ofModel (.pack (.finite .positive m e h.pos))) :
    exact (Float.ofInt i) = if i < 0 then -(m * (2 : ℚ) ^ e) else m * (2 : ℚ) ^ e := by
  cases i with
  | ofNat n =>
    have positive : ¬ Int.ofNat n < 0 := Int.not_lt.mpr (Int.natCast_nonneg n)
    rw [if_neg positive, Float.ofInt, show Float.ofNat n = _ from number, exact_pack h high]
    rfl
  | negSucc n =>
    rw [if_pos (Int.negSucc_lt_zero n)]
    change exact (-Float.ofNat (n + 1)) = _
    rw [show Float.ofNat (n + 1) = _ from number, neg_pack h high, exact_pack h high, ← neg_mul]
    change ((-(m : Int) : Int) : ℚ) * _ = _
    push_cast
    rfl

/-- The float of a whole number of few bits is that number itself. -/
theorem exact_ofInt (h : i.natAbs < 2 ^ 53) : exact (Float.ofInt i) = i := by
  obtain rfl | hz := eq_or_ne i 0
  · rfl
  obtain ⟨k, full, number⟩ := ofNat_small (Int.natAbs_pos.mpr hz) h
  have size : ((i.natAbs * 2 ^ k : Nat) : ℚ) * 2 ^ (-(k : Int)) = (i.natAbs : Int) := by
    rw [zpow_neg, zpow_natCast, Int.cast_natCast, Nat.cast_mul, Nat.cast_pow, Nat.cast_ofNat]
    exact mul_inv_cancel_right₀ (pow_ne_zero k two_ne_zero) _
  rw [exact_ofInt_of_full full (by omega) number, size, ← Int.cast_neg, ← apply_ite Int.cast]
  congr 1
  split <;> omega

/-- The float of any other whole number, if there is one, is no nearer to zero. -/
theorem exact_ofInt_large (finite : classOf (Float.ofInt i) = .finite) :
    (2 ^ 53 ≤ i → 2 ^ 53 ≤ exact (Float.ofInt i)) ∧
      (i ≤ -2 ^ 53 → exact (Float.ofInt i) ≤ -2 ^ 53) := by
  by_cases large : 2 ^ 53 ≤ i.natAbs
  · obtain ⟨m, e, full, he, number⟩ := ofNat_large large
    have high : e ≤ 971 := by
      by_contra above
      rw [pack_infinite full (by omega)] at number
      cases i with
      | ofNat n =>
        change classOf (Float.ofNat n) = _ at finite
        rw [show Float.ofNat n = _ from number] at finite
        cases finite
      | negSucc n =>
        change classOf (-Float.ofNat (n + 1)) = _ at finite
        rw [show Float.ofNat (n + 1) = _ from number] at finite
        cases finite
    have least : 2 ^ 52 ≤ m := by
      rw [full.mod]
      exact Nat.le_add_right _ _
    have size : (2 : ℚ) ^ 53 ≤ m * (2 : ℚ) ^ e := by
      calc (2 : ℚ) ^ 53 = (2 ^ 52 : Nat) * (2 : ℚ) ^ (1 : Int) := by norm_num
        _ ≤ m * (2 : ℚ) ^ e := by gcongr; norm_num
    rw [exact_ofInt_of_full full high number]
    constructor
    · intro hi
      rwa [if_neg (by omega)]
    · intro hi
      rw [if_pos (by omega)]
      exact neg_le_neg size
  · constructor
    · omega
    · omega

end Integers

end LoopScript.Decimal
