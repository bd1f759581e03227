import LoopScript.Value.Number
import Mathlib.Algebra.Order.Field.Power
import Mathlib.Data.Rat.Cast.Order
import Mathlib.Order.Compare
import Mathlib.Order.WithBot
import Mathlib.Tactic.Positivity

/-!
The line on which numbers lie. Comparing two numbers compares their exact values, the infinities
being the ends of the line.
-/

namespace LoopScript

namespace Decimal.Scaled

/-- The number itself, which its many forms have in common. -/
def value (s : Scaled) : ℚ := s.significand * (2 : ℚ) ^ s.q

theorem cast_shiftLeft (m : Nat) {e q : Int} (h : e ≤ q) :
    ((m <<< (q - e).toNat : Nat) : ℚ) * (2 : ℚ) ^ e = m * (2 : ℚ) ^ q := by
  have shift : q = (q - e).toNat + e := by omega
  rw [Nat.shiftLeft_eq, Nat.cast_mul, Nat.cast_pow, Nat.cast_ofNat, mul_assoc, ← zpow_natCast,
    ← zpow_add₀ two_ne_zero, ← shift]

theorem aligned_value (a b : Scaled) :
    ((a.aligned b).1 : ℚ) * (2 : ℚ) ^ min a.q b.q = a.m * (2 : ℚ) ^ a.q ∧
      ((a.aligned b).2 : ℚ) * (2 : ℚ) ^ min a.q b.q = b.m * (2 : ℚ) ^ b.q := by
  unfold aligned
  split
  · next h => simp [h]
  · split
    · next h =>
      rw [min_eq_left h.le]
      exact ⟨rfl, cast_shiftLeft b.m h.le⟩
    · next h h' =>
      have le : b.q ≤ a.q := by omega
      rw [min_eq_right le]
      exact ⟨cast_shiftLeft a.m le, rfl⟩

def signed (negative : Bool) (m : Nat) : Int := if negative then -m else m

theorem value_of_magnitude {s : Scaled} {m : Nat} {u : ℚ} (h : m * u = s.m * (2 : ℚ) ^ s.q) :
    s.value = signed s.negative m * u := by
  rw [value, significand, signed]
  split
  · push_cast
    rw [neg_mul, neg_mul, h]
  · push_cast
    exact h.symm

/-- Two numbers as multiples of the same power of two. -/
theorem value_aligned (a b : Scaled) :
    ∃ u : ℚ, 0 < u ∧ a.value = signed a.negative (a.aligned b).1 * u ∧
      b.value = signed b.negative (a.aligned b).2 * u := by
  obtain ⟨left, right⟩ := aligned_value a b
  exact ⟨(2 : ℚ) ^ min a.q b.q, by positivity, value_of_magnitude left, value_of_magnitude right⟩

theorem same_iff (a b : Scaled) : a.same b = true ↔ a.value = b.value := by
  obtain ⟨u, hu, ha, hb⟩ := value_aligned a b
  rw [ha, hb, mul_left_inj' hu.ne', Int.cast_inj, same]
  simp only [Bool.and_eq_true, beq_iff_eq, Bool.or_eq_true]
  generalize (a.aligned b).1 = m, (a.aligned b).2 = n
  cases a.negative <;> cases b.negative <;> simp [signed] <;> omega

theorem lt_iff (a b : Scaled) : a.lt b = true ↔ a.value < b.value := by
  obtain ⟨u, hu, ha, hb⟩ := value_aligned a b
  rw [ha, hb, mul_lt_mul_iff_of_pos_right hu, Int.cast_lt, lt]
  obtain ⟨m, n⟩ := a.aligned b
  cases a.negative <;> cases b.negative <;> simp [signed]
  all_goals omega

end Decimal.Scaled

namespace Extended

def isNowhere : Extended → Bool
  | nowhere => true
  | _ => false

/-- The place of a number on the line with two ends. What lies nowhere is put at the lower end. -/
def rank : Extended → WithBot (WithTop ℚ)
  | below | nowhere => ⊥
  | finite x => ((x.value : WithTop ℚ) : WithBot (WithTop ℚ))
  | above => ((⊤ : WithTop ℚ) : WithBot (WithTop ℚ))

variable {a b : Extended}

theorem lt_iff (ha : a.isNowhere = false) (hb : b.isNowhere = false) :
    a.lt b = true ↔ a.rank < b.rank := by
  cases a <;> cases b <;> simp_all [isNowhere, lt, rank, Decimal.Scaled.lt_iff]
  case finite.above x => exact WithBot.coe_lt_coe.mpr (WithTop.coe_lt_top x.value)

theorem same_iff (a b : Extended) :
    a.same b = true ↔ a.isNowhere = false ∧ b.isNowhere = false ∧ a.rank = b.rank := by
  cases a <;> cases b <;> simp [same, isNowhere, rank, Decimal.Scaled.same_iff]

theorem compare_eq (ha : a.isNowhere = false) (hb : b.isNowhere = false) :
    a.compare b = cmp a.rank b.rank := by
  rw [Extended.compare, cmp, cmpUsing]
  simp only [lt_iff ha hb, lt_iff hb ha]

end Extended

end LoopScript
