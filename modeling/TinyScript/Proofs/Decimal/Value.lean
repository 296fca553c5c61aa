import Mathlib.Algebra.Order.Ring.Rat
import Mathlib.Tactic.Positivity
import TinyScript.Decimal.Order
import TinyScript.Proofs.Numeral

/-
  The numbers that decimals stand for.

  * `value_eq_digitsAt`: a decimal is its digits at any scale that shows them all;
  * `compare_eq_compare_value`: decimals are ordered as the numbers they stand for;
  * `same_iff`: decimals are the same exactly if they stand for one number.
-/

namespace TinyScript

namespace Decimal

theorem ten_zpow_pos (k : ℤ) : (0 : ℚ) < 10 ^ k := zpow_pos (by norm_num) k

theorem ten_zpow_add (k : ℕ) (s : ℤ) : (10 : ℚ) ^ (k + s) = 10 ^ k * 10 ^ s := by
  rw [zpow_add₀ (by norm_num), zpow_natCast]

/-- Further digits after the point change nothing. -/
theorem value_eq_digitsAt (d : Decimal) {scale : ℤ} (h : d.scale ≤ scale) :
    d.value = d.digitsAt scale * 10 ^ (-scale) := by
  have hshift : ((scale - d.scale).toNat : ℤ) = scale - d.scale := by omega
  have hpow : (10 : ℚ) ^ (scale - d.scale).toNat * 10 ^ (-scale) = 10 ^ (-d.scale) := by
    rw [← ten_zpow_add, hshift]
    congr 1
    ring
  rw [digitsAt_eq, value, ← hpow]
  push_cast
  ring

/-- Decimals are ordered as the numbers they stand for, whatever their digits and scales. -/
theorem compare_eq_compare_value (a b : Decimal) : a.compare b = Ord.compare a.value b.value := by
  have hunit : (0 : ℚ) < 10 ^ (-max a.scale b.scale) := ten_zpow_pos _
  rw [compare_eq, a.value_eq_digitsAt (le_max_left ..), b.value_eq_digitsAt (le_max_right ..)]
  generalize a.digitsAt (max a.scale b.scale) = m
  generalize b.digitsAt (max a.scale b.scale) = n
  rcases lt_trichotomy m n with h | rfl | h
  · have hlt : (m : ℚ) < n := by exact_mod_cast h
    rw [Int.compare_eq_lt.2 h, eq_comm, compare_lt_iff_lt]
    exact mul_lt_mul_of_pos_right hlt hunit
  · rw [Int.compare_eq_eq.2 rfl, eq_comm, compare_eq_iff_eq]
  · have hlt : (n : ℚ) < m := by exact_mod_cast h
    rw [Int.compare_eq_gt.2 h, eq_comm, compare_gt_iff_gt]
    exact mul_lt_mul_of_pos_right hlt hunit

theorem same_iff {a b : Decimal} : a.same b = true ↔ a.value = b.value := by
  rw [same, beq_iff_eq, compare_eq_compare_value, compare_eq_iff_eq]

end Decimal

end TinyScript
