import Mathlib.Data.Int.Log
import Mathlib.Data.Rat.Floor
import Mathlib.Tactic.Linarith
import TinyScript.Decimal.Division
import TinyScript.Proofs.Decimal.Value

/-
  Rounding to significant digits.

  What a rounded number is depends on the number only, not on digits or on how they were found.

  * `Nearest`: the nearest integer, the even one in the middle between two;
  * `Leading`: where the last of the leading digits stands;
  * `RoundsTo`: a number and what it is rounded to, which is one number (`exists_unique_roundsTo`);
  * `Decimal.roundsTo_roundTo`: decimals are rounded so;
  * `Decimal.normal_normalized`: nothing but trailing zeros is lost by `normalized`.
-/

namespace TinyScript

variable {n : ℕ} {x y y' : ℚ} {e e' m m' : ℤ}

/-! ## Nearest integers -/

/-- The integer nearest to `x`; of two equally near ones the even. -/
structure Nearest (x : ℚ) (m : ℤ) : Prop where
  near : |x - m| ≤ 1 / 2
  even : |x - m| = 1 / 2 → Even m

namespace Nearest

theorem of_lt (h : |x - m| < 1 / 2) : Nearest x m := ⟨h.le, fun he => absurd he h.ne⟩

theorem self (m : ℤ) : Nearest m m := of_lt (by norm_num)

/-- The larger one of two nearest integers would be next to the smaller one, with `x` in the
    middle, so that both are even. -/
theorem not_lt (h : Nearest x m) (h' : Nearest x m') : ¬m < m' := by
  intro hlt
  have hle := (abs_le.1 h.near).2
  have hge := (abs_le.1 h'.near).1
  have hnext : (m : ℚ) + 1 ≤ m' := by exact_mod_cast hlt
  have hm' : (m' : ℚ) = m + 1 := by linarith
  have hx : x = m + 1 / 2 := by linarith
  have heven := h.even (by rw [hx]; norm_num)
  have heven' := h'.even (by rw [hx, hm']; norm_num)
  have hsucc : m' = m + 1 := by exact_mod_cast hm'
  rw [hsucc] at heven'
  exact Int.even_add_one.1 heven' heven

theorem unique (h : Nearest x m) (h' : Nearest x m') : m = m' := by
  rcases lt_trichotomy m m' with hlt | rfl | hlt
  · exact absurd hlt (h.not_lt h')
  · rfl
  · exact absurd hlt (h'.not_lt h)

theorem neg (h : Nearest x m) : Nearest (-x) (-m : ℤ) := by
  have habs : |-x - (-m : ℤ)| = |x - m| := by
    rw [← abs_neg]
    congr 1
    push_cast
    ring
  exact ⟨habs ▸ h.near, fun he => (h.even (habs ▸ he)).neg⟩

end Nearest

/-- The nearest integer to a fraction, without dividing. -/
theorem nearest_div_iff {u : ℚ} (hu : 0 < u) :
    Nearest (x / u) m ↔ 2 * |x - m * u| ≤ u ∧ (2 * |x - m * u| = u → Even m) := by
  have habs : |x / u - m| = |x - m * u| / u := by
    rw [← abs_of_pos hu, ← abs_div, abs_of_pos hu]
    congr 1
    field_simp
  have hle : |x / u - m| ≤ 1 / 2 ↔ 2 * |x - m * u| ≤ u := by
    rw [habs, div_le_iff₀ hu]
    constructor <;> intro h <;> linarith
  have heq : |x / u - m| = 1 / 2 ↔ 2 * |x - m * u| = u := by
    rw [habs, div_eq_iff hu.ne']
    constructor <;> intro h <;> linarith
  exact ⟨fun h => ⟨hle.1 h.near, fun he => h.even (heq.2 he)⟩,
    fun h => ⟨hle.2 h.1, fun he => h.2 (heq.1 he)⟩⟩

theorem exists_nearest (x : ℚ) : ∃ m, Nearest x m := by
  have hfloor := Int.self_sub_floor x
  have hlow := Int.fract_nonneg x
  have hhigh := Int.fract_lt_one x
  rcases lt_trichotomy (Int.fract x) (1 / 2) with h | h | h
  · exact ⟨⌊x⌋, .of_lt (by rw [hfloor, abs_of_nonneg hlow]; exact h)⟩
  · rcases Int.even_or_odd ⌊x⌋ with heven | hodd
    · exact ⟨⌊x⌋, by rw [hfloor, h]; norm_num, fun _ => heven⟩
    · refine ⟨⌊x⌋ + 1, ?_, fun _ => hodd.add_one⟩
      rw [Int.cast_add, ← sub_sub, hfloor, h]
      norm_num
  · refine ⟨⌊x⌋ + 1, .of_lt ?_⟩
    rw [Int.cast_add, Int.cast_one, ← sub_sub, hfloor, abs_sub_lt_iff]
    constructor <;> linarith

/-! ## Significant digits -/

/-- The last one of the `n` leading digits of `x` stands for a multiple of `10 ^ e`. -/
def Leading (n : ℕ) (x : ℚ) (e : ℤ) : Prop :=
  10 ^ (e + n - 1) ≤ |x| ∧ |x| < 10 ^ (e + n)

/-- A number and what it is when rounded to `n` significant digits. -/
inductive RoundsTo (n : ℕ) : ℚ → ℚ → Prop
  | zero : RoundsTo n 0 0
  | digits {x : ℚ} {e m : ℤ} : Leading n x e → Nearest (x / 10 ^ e) m →
      RoundsTo n x (m * 10 ^ e)

theorem Leading.ne_zero (h : Leading n x e) : x ≠ 0 := by
  rintro rfl
  exact absurd h.1 (by rw [abs_zero, not_le]; exact Decimal.ten_zpow_pos _)

theorem Leading.le (h : Leading n x e) (h' : Leading n x e') : e ≤ e' := by
  have hlt : (10 : ℚ) ^ (e + n - 1) < 10 ^ (e' + n) := h.1.trans_lt h'.2
  rw [zpow_lt_zpow_iff_right₀ (by norm_num)] at hlt
  omega

theorem Leading.unique (h : Leading n x e) (h' : Leading n x e') : e = e' :=
  le_antisymm (h.le h') (h'.le h)

theorem exists_leading (n : ℕ) (hx : x ≠ 0) : ∃ e, Leading n x e := by
  have hlow : Int.log 10 |x| - n + 1 + n - 1 = Int.log 10 |x| := by ring
  have hhigh : Int.log 10 |x| - n + 1 + n = Int.log 10 |x| + 1 := by ring
  refine ⟨Int.log 10 |x| - n + 1, ?_, ?_⟩
  · rw [hlow]
    exact_mod_cast Int.zpow_log_le_self (b := 10) (by norm_num) (abs_pos.2 hx)
  · rw [hhigh]
    exact_mod_cast Int.lt_zpow_succ_log_self (b := 10) (by norm_num) |x|

theorem Leading.exists_of_roundsTo (h : Leading n x e) (hr : RoundsTo n x y) :
    ∃ m : ℤ, y = m * 10 ^ e ∧ Nearest (x / 10 ^ e) m := by
  cases hr with
  | zero => exact absurd rfl h.ne_zero
  | digits he hm =>
    obtain rfl := h.unique he
    exact ⟨_, rfl, hm⟩

/-- At the place of the last digit, to round is to take the nearest integer. -/
theorem Leading.roundsTo_iff (h : Leading n x e) :
    RoundsTo n x (m * 10 ^ e) ↔ Nearest (x / 10 ^ e) m := by
  constructor
  · intro hr
    obtain ⟨m', hy, hm'⟩ := h.exists_of_roundsTo hr
    have hmm' : m = m' := by exact_mod_cast mul_right_cancel₀ (Decimal.ten_zpow_pos e).ne' hy
    exact hmm' ▸ hm'
  · exact .digits h

/-- A number without further digits is rounded to itself. -/
theorem Leading.roundsTo_self (h : Leading n (m * 10 ^ e) e) :
    RoundsTo n (m * 10 ^ e) (m * 10 ^ e) := by
  rw [h.roundsTo_iff, mul_div_cancel_right₀ _ (Decimal.ten_zpow_pos e).ne']
  exact .self m

theorem RoundsTo.unique (h : RoundsTo n x y) (h' : RoundsTo n x y') : y = y' := by
  cases h with
  | zero =>
    cases h' with
    | zero => rfl
    | digits he _ => exact absurd rfl he.ne_zero
  | digits he hm =>
    obtain ⟨m', rfl, hm'⟩ := he.exists_of_roundsTo h'
    rw [hm.unique hm']

/-- Every number is rounded to one number. -/
theorem exists_unique_roundsTo (n : ℕ) (x : ℚ) : ∃! y, RoundsTo n x y := by
  by_cases hx : x = 0
  · subst hx
    exact ⟨0, .zero, fun y hy => hy.unique .zero⟩
  · obtain ⟨e, he⟩ := exists_leading n hx
    obtain ⟨m, hm⟩ := exists_nearest (x / 10 ^ e)
    exact ⟨_, .digits he hm, fun y hy => hy.unique (.digits he hm)⟩

/-! ## Digits of natural numbers -/

namespace Decimal

theorem digitCount_eq (n : ℕ) : digitCount n = Nat.log 10 n + 1 := by
  fun_induction digitCount n with
  | case1 n h => rw [Nat.log_of_lt h]
  | case2 n h ih => rw [ih, Nat.log_of_one_lt_of_le (n := n) (by norm_num) (by omega)]

theorem lt_pow_digitCount (n : ℕ) : n < 10 ^ digitCount n := by
  rw [digitCount_eq]
  exact Nat.lt_pow_succ_log_self (by norm_num) n

theorem pow_le_of_digitCount {n k : ℕ} (hn : n ≠ 0) (h : digitCount n = k + 1) : 10 ^ k ≤ n := by
  rw [digitCount_eq, Nat.add_right_cancel_iff] at h
  exact h ▸ Nat.pow_log_le_self 10 hn

theorem lt_digitCount {n k : ℕ} (h : 10 ^ k ≤ n) : k < digitCount n := by
  have hn : n ≠ 0 := by
    rintro rfl
    exact absurd h (by simp)
  rw [digitCount_eq, Nat.lt_add_one_iff, Nat.le_log_iff_pow_le (by norm_num) hn]
  exact h

theorem exists_trailingZeros {n : ℕ} (hn : n ≠ 0) :
    ∃ k, n = 10 ^ trailingZeros n * k ∧ ¬10 ∣ k := by
  fun_induction trailingZeros n with
  | case1 => exact absurd rfl hn
  | case2 n _ hmod ih =>
    obtain ⟨k, hk, hdvd⟩ := ih (by omega)
    refine ⟨k, ?_, hdvd⟩
    rw [pow_succ', mul_assoc, ← hk]
    omega
  | case3 n _ hmod => exact ⟨n, by simp, by omega⟩

/-! ## Normal forms -/

/-- The form without trailing zero digits. -/
structure Normal (d : Decimal) : Prop where
  /-- Zero has no digits after the point. -/
  zero : d.digits = 0 → d.scale = 0
  /-- Other numbers do not end in a zero. -/
  stripped : d.digits ≠ 0 → ¬10 ∣ d.digits

theorem exists_normalized {d : Decimal} (hd : d.digits ≠ 0) :
    ∃ (k : ℕ) (m : ℤ), d.digits = 10 ^ k * m ∧ ¬10 ∣ m ∧ d.normalized = ⟨m, d.scale - k⟩ := by
  obtain ⟨j, hj, hdvd⟩ := exists_trailingZeros (Int.natAbs_ne_zero.2 hd)
  generalize hk : trailingZeros d.digits.natAbs = k at hj
  have hdigits : d.digits = 10 ^ k * (d.digits.sign * j) := by
    conv_lhs => rw [← Int.sign_mul_natAbs d.digits, hj]
    push_cast
    ring
  refine ⟨k, d.digits.sign * j, hdigits, ?_, ?_⟩
  · rw [← Int.natAbs_dvd_natAbs, Int.natAbs_mul, Int.natAbs_sign_of_ne_zero hd, one_mul]
    exact hdvd
  · rw [normalized, if_neg hd]
    simp only [hk, mk.injEq, and_true]
    conv_lhs => rw [hdigits]
    exact Int.mul_tdiv_cancel_left _ (by positivity)

theorem normal_normalized (d : Decimal) : d.normalized.Normal := by
  by_cases hd : d.digits = 0
  · rw [normalized, if_pos hd]
    exact ⟨fun _ => rfl, fun h => absurd rfl h⟩
  · obtain ⟨k, m, -, hdvd, hform⟩ := exists_normalized hd
    rw [hform]
    exact ⟨fun h => absurd (Dvd.intro 0 (Eq.symm h)) hdvd, fun _ => hdvd⟩

theorem value_normalized (d : Decimal) : d.normalized.value = d.value := by
  by_cases hd : d.digits = 0
  · rw [normalized, if_pos hd, value, value, hd]
    simp
  · obtain ⟨k, m, hdigits, -, hform⟩ := exists_normalized hd
    have hpow : (10 : ℚ) ^ (-(d.scale - k)) = 10 ^ k * 10 ^ (-d.scale) := by
      rw [← ten_zpow_add]
      congr 1
      ring
    rw [hform, value, value, hdigits, hpow]
    push_cast
    ring

/-! ## Rounding decimals -/

/-- The integer nearest to a fraction. -/
theorem nearest_roundHalfEven (num : ℕ) {den : ℕ} (hden : 0 < den) :
    Nearest (num / den) (roundHalfEven num den) := by
  have hpos : (0 : ℚ) < den := by exact_mod_cast hden
  have hmod := Nat.mod_lt num hden
  have hnum := Nat.div_add_mod num den
  unfold roundHalfEven
  generalize num / den = q at hnum ⊢
  generalize num % den = r at hnum hmod ⊢
  have hrem : (r : ℚ) < den := by exact_mod_cast hmod
  have hdown : |(num : ℚ) - (q : ℤ) * den| = r := by
    have hdiff : (num : ℚ) - (q : ℤ) * den = r := by
      rw [← hnum]
      push_cast
      ring
    rw [hdiff, abs_of_nonneg (Nat.cast_nonneg r)]
  have hup : |(num : ℚ) - ((q + 1 : ℕ) : ℤ) * den| = den - r := by
    have hdiff : (num : ℚ) - ((q + 1 : ℕ) : ℤ) * den = -(den - r) := by
      rw [← hnum]
      push_cast
      ring
    rw [hdiff, abs_neg, abs_of_pos (sub_pos.2 hrem)]
  rw [nearest_div_iff hpos]
  dsimp only
  split_ifs with hlt hgt heven
  · have hlt' : 2 * (r : ℚ) < den := by exact_mod_cast hlt
    rw [hdown]
    exact ⟨hlt'.le, fun he => absurd he hlt'.ne⟩
  · have hgt' : (den : ℚ) < 2 * r := by exact_mod_cast hgt
    rw [hup]
    exact ⟨by linarith, fun he => by linarith⟩
  · have hle : 2 * (r : ℚ) ≤ den := by exact_mod_cast not_lt.1 hgt
    rw [hdown]
    exact ⟨hle, fun _ => by exact_mod_cast Nat.even_iff.2 heven⟩
  · have hle : (den : ℚ) ≤ 2 * r := by exact_mod_cast not_lt.1 hlt
    have hodd : Even (q + 1) := (Nat.odd_iff.2 (by omega)).add_one
    rw [hup]
    exact ⟨by linarith, fun _ => by exact_mod_cast hodd⟩

theorem abs_value (d : Decimal) : |d.value| = d.digits.natAbs * 10 ^ (-d.scale) := by
  rw [value, abs_mul, abs_of_pos (ten_zpow_pos _), Nat.cast_natAbs, Int.cast_abs]

/-- Where the last of the leading digits of a decimal stands. -/
theorem leading_value (n : ℕ) {d : Decimal} (hd : d.digits ≠ 0) :
    Leading n d.value (digitCount d.digits.natAbs - n - d.scale) := by
  obtain ⟨k, hk⟩ : ∃ k, digitCount d.digits.natAbs = k + 1 := ⟨_, digitCount_eq _⟩
  have hlow : (10 : ℚ) ^ k ≤ d.digits.natAbs := by
    exact_mod_cast pow_le_of_digitCount (Int.natAbs_ne_zero.2 hd) hk
  have hhigh : (d.digits.natAbs : ℚ) < 10 ^ (k + 1) := by
    exact_mod_cast hk ▸ lt_pow_digitCount d.digits.natAbs
  have hunit := ten_zpow_pos (-d.scale)
  have hplace : (↑(k + 1) - n - d.scale + n - 1 : ℤ) = k + -d.scale := by push_cast; ring
  have hplace' : (↑(k + 1) - n - d.scale + n : ℤ) = ↑(k + 1) + -d.scale := by ring
  rw [hk, Leading, abs_value, hplace, hplace', ten_zpow_add, ten_zpow_add]
  exact ⟨mul_le_mul_of_nonneg_right hlow hunit.le, mul_lt_mul_of_pos_right hhigh hunit⟩

/-- A decimal of few digits is rounded to itself. -/
theorem roundsTo_self {n : ℕ} {d : Decimal} (h : digitCount d.digits.natAbs ≤ n) :
    RoundsTo n d.value d.value := by
  by_cases hd : d.digits = 0
  · rw [value, hd, Int.cast_zero, zero_mul]
    exact .zero
  · obtain ⟨j, rfl⟩ := Nat.exists_eq_add_of_le h
    have hlead := leading_value (digitCount d.digits.natAbs + j) hd
    have hplace : (digitCount d.digits.natAbs - ↑(digitCount d.digits.natAbs + j) - d.scale : ℤ) =
        -d.scale - j := by push_cast; ring
    have hvalue : d.value = ((d.digits * 10 ^ j : ℤ) : ℚ) * 10 ^ (-d.scale - j) := by
      rw [value, zpow_sub₀ (by norm_num), zpow_natCast]
      push_cast
      field_simp
    rw [hplace] at hlead
    rw [hvalue] at hlead ⊢
    exact hlead.roundsTo_self

theorem roundHalfEven_one (n : ℕ) : roundHalfEven n 1 = n := by
  simp [roundHalfEven, Nat.mod_one]

/-- A decimal counted in units of a place in front of its last digit. -/
theorem value_div (d : Decimal) (k : ℕ) : d.value / 10 ^ (k - d.scale) = d.digits / 10 ^ k := by
  rw [value, sub_eq_add_neg, ten_zpow_add, mul_div_mul_right _ _ (ten_zpow_pos _).ne']

/-- The sign plays no part in rounding. -/
theorem nearest_sign_mul {z : ℤ} (hz : z ≠ 0) {m den : ℕ} (h : Nearest (z.natAbs / den) m) :
    Nearest (z / den) (z.sign * m) := by
  rcases lt_or_gt_of_ne hz with hneg | hpos
  · have habs : (z.natAbs : ℚ) = -z := by
      rw [Nat.cast_natAbs, abs_of_neg hneg, Int.cast_neg]
    rw [habs, neg_div] at h
    rw [Int.sign_eq_neg_one_of_neg hneg, neg_one_mul, ← neg_neg ((z : ℚ) / den)]
    exact h.neg
  · have habs : (z.natAbs : ℚ) = z := by rw [Nat.cast_natAbs, abs_of_pos hpos]
    rw [habs] at h
    rwa [Int.sign_eq_one_of_pos hpos, one_mul]

/-- Decimals are rounded as the numbers that they stand for. -/
theorem roundsTo_roundTo (n : ℕ) (d : Decimal) : RoundsTo n d.value (d.roundTo n).value := by
  rcases Nat.le_total (digitCount d.digits.natAbs) n with hle | hle
  · -- No digit is left out.
    have hsame : d.roundTo n = d := by
      simp only [roundTo, Nat.sub_eq_zero_of_le hle, pow_zero, roundHalfEven_one,
        Int.sign_mul_natAbs, Int.natCast_zero, sub_zero]
    rw [hsame]
    exact roundsTo_self hle
  · obtain ⟨k, hk⟩ := Nat.exists_eq_add_of_le hle
    have hplace : (digitCount d.digits.natAbs - n - d.scale : ℤ) = k - d.scale := by
      rw [hk]
      push_cast
      ring
    by_cases hd : d.digits = 0
    · simp only [value, roundTo, hd, Int.sign_zero, zero_mul, Int.cast_zero]
      exact .zero
    · have hlead := leading_value n hd
      rw [hplace] at hlead
      have hround : (d.roundTo n).value =
          (d.digits.sign * roundHalfEven d.digits.natAbs (10 ^ k) : ℤ) * 10 ^ (k - d.scale) := by
        simp [roundTo, value, hk]
      rw [hround, hlead.roundsTo_iff, value_div]
      have hpos : 0 < 10 ^ k := by positivity
      have hnear := nearest_sign_mul hd (nearest_roundHalfEven d.digits.natAbs hpos)
      rw [Nat.cast_pow, Nat.cast_ofNat] at hnear
      exact hnear

end Decimal

end TinyScript
