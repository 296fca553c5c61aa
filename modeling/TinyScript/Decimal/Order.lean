import TinyScript.Decimal.Basic

/-
  The order of decimals: by number, whatever the forms.

  To compare two decimals, the one with fewer digits after the point is brought
  to the scale of the other.  Where that takes more zeros than the other has
  digits, it is the larger in magnitude, and its sign decides; so the work is
  bounded by the digits of the two, however far apart their scales are.

  * `Decimal.compare_eq`: the order is that of the digits at the larger scale.
-/

namespace TinyScript

attribute [local instance (high)] instPowNat

namespace Decimal

/-- Orders `m · 10^k` and `n`. -/
def compareShifted (m : Int) (k : Nat) (n : Int) : Ordering :=
  if m = 0 then Ord.compare 0 n
  else if n.natAbs.log2 < 3 * k then Ord.compare m 0
  else Ord.compare (m * 10 ^ k) n

/-- Orders two numbers, whatever their forms. -/
def compare (a b : Decimal) : Ordering :=
  if a.scale ≤ b.scale then compareShifted a.digits (b.scale - a.scale).toNat b.digits
  else (compareShifted b.digits (a.scale - b.scale).toNat a.digits).swap

/-- Whether two decimals are the same number. -/
def same (a b : Decimal) : Bool := a.compare b == .eq

/-! ## The order is numeric -/

/-- A number of few binary digits is below a power of ten. -/
theorem lt_ten_pow_of_log2_lt {n k : Nat} (h : n.log2 < 3 * k) : n < 10 ^ k :=
  calc n < 2 ^ (n.log2 + 1) := Nat.lt_log2_self
    _ ≤ 2 ^ (3 * k) := Nat.pow_le_pow_right (by decide) h
    _ = 8 ^ k := Nat.pow_mul 2 3 k
    _ ≤ 10 ^ k := Nat.pow_le_pow_left (by decide) k

theorem compareShifted_eq (m : Int) (k : Nat) (n : Int) :
    compareShifted m k n = Ord.compare (m * 10 ^ k) n := by
  unfold compareShifted
  split
  · next h => simp [h]
  split
  · next hm hk =>
    have hn : (n.natAbs : Int) < 10 ^ k := by exact_mod_cast lt_ten_pow_of_log2_lt hk
    rcases Int.lt_or_gt_of_ne hm with h | h
    · have hle : m * 10 ^ k ≤ -1 * 10 ^ k := Int.mul_le_mul_of_nonneg_right (by omega) (by omega)
      rw [Int.compare_eq_lt.mpr h, eq_comm, Int.compare_eq_lt]
      omega
    · have hle : 1 * 10 ^ k ≤ m * 10 ^ k := Int.mul_le_mul_of_nonneg_right (by omega) (by omega)
      rw [Int.compare_eq_gt.mpr h, eq_comm, Int.compare_eq_gt]
      omega
  · rfl

/-- Two numbers are ordered as their digits at the larger scale. -/
theorem compare_eq (a b : Decimal) :
    a.compare b =
      Ord.compare (a.digitsAt (max a.scale b.scale)) (b.digitsAt (max a.scale b.scale)) := by
  rw [digitsAt_eq, digitsAt_eq]
  unfold compare
  split
  · next h =>
    rw [compareShifted_eq, Int.max_eq_right h, Int.sub_self, Int.toNat_zero, Int.pow_zero, Int.mul_one]
  · next h =>
    rw [compareShifted_eq, Int.max_eq_left (by omega), Int.sub_self, Int.toNat_zero, Int.pow_zero,
      Int.mul_one, Int.compare_swap]

end Decimal

end TinyScript
