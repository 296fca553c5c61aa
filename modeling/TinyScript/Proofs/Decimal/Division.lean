import TinyScript.Proofs.Decimal.Rounding
import TinyScript.Value.Arithmetic

/-
  Quotients of decimals are rounded correctly, but for one case.

  A quotient is rounded twice, to 100 digits by long division and then to 34.  The first time
  can move it onto the middle between two numbers of 34 digits.  The second time then goes to the
  even one of them, also where the quotient is nearer to the other.

  * `LongDivision.Divides`: what every step of long division keeps;
  * `approximates_longQuotient`: the quotient is found, or cut in at least 100 digits;
  * `Misjudged`: the rounded number is on the other side of the middle;
  * `roundsTo_roundTo_iff`: in all other cases a number rounded twice is rounded correctly;
  * `division_rounds_iff`: so are quotients.
-/

namespace TinyScript

variable {n p : ℕ} {x t y : ℚ} {e m : ℤ}

/-! ## Long division -/

namespace Decimal

/-- The digits so far and the remainder make up the dividend. -/
structure LongDivision.Divides (num den : ℕ) (p : LongDivision) : Prop where
  equation : p.quotient * den + p.remainder = num * 10 ^ p.appended
  remainder_lt : p.remainder < den

section
variable {num den : ℕ}

/-- One more digit. -/
theorem LongDivision.Divides.step {p : LongDivision} (h : p.Divides num den) :
    LongDivision.Divides num den
      ⟨10 * p.quotient + 10 * p.remainder / den, p.appended + 1, 10 * p.remainder % den⟩ := by
  refine ⟨?_, Nat.mod_lt _ (Nat.zero_lt_of_lt h.remainder_lt)⟩
  have hdigit := Nat.div_add_mod (10 * p.remainder) den
  calc (10 * p.quotient + 10 * p.remainder / den) * den + 10 * p.remainder % den
      = 10 * (p.quotient * den) + (den * (10 * p.remainder / den) + 10 * p.remainder % den) := by
        ring
    _ = 10 * (p.quotient * den + p.remainder) := by rw [hdigit]; ring
    _ = num * 10 ^ (p.appended + 1) := by rw [h.equation]; ring

/-- Long division ends, or appends all the digits. -/
theorem LongDivision.Divides.appendDigits (k : ℕ) : ∀ {p : LongDivision}, p.Divides num den →
    (LongDivision.appendDigits den k p).Divides num den ∧
      ((LongDivision.appendDigits den k p).remainder = 0 ∨
        p.quotient * 10 ^ k ≤ (LongDivision.appendDigits den k p).quotient) := by
  induction k with
  | zero =>
    intro p h
    exact ⟨h, Or.inr (by rw [pow_zero, mul_one]; rfl)⟩
  | succ k ih =>
    intro p h
    rw [LongDivision.appendDigits]
    split_ifs with hzero
    · exact ⟨h, Or.inl hzero⟩
    · obtain ⟨hdiv, hend⟩ := ih h.step
      refine ⟨hdiv, hend.imp_right fun hle => le_trans ?_ hle⟩
      calc p.quotient * 10 ^ (k + 1) = 10 * p.quotient * 10 ^ k := by ring
        _ ≤ (10 * p.quotient + 10 * p.remainder / den) * 10 ^ k :=
          Nat.mul_le_mul_right _ (Nat.le_add_right _ _)

/-- The quotient is the digits so far and a fraction. -/
theorem LongDivision.Divides.quotient_eq {p : LongDivision} (h : p.Divides num den) :
    (num / den : ℚ) * 10 ^ p.appended = p.quotient + p.remainder / den := by
  have hden : (den : ℚ) ≠ 0 := by exact_mod_cast (Nat.zero_lt_of_lt h.remainder_lt).ne'
  have heq : (p.quotient : ℚ) * den + p.remainder = num * 10 ^ p.appended := by
    exact_mod_cast h.equation
  rw [div_mul_eq_mul_div, ← heq]
  field_simp

/-- The digits so far, the last one rounded by the next. -/
def LongDivision.rounded (den : ℕ) (p : LongDivision) : ℕ :=
  if 5 ≤ 10 * p.remainder / den then p.quotient + 1 else p.quotient

theorem LongDivision.quotient_le_rounded (den : ℕ) (p : LongDivision) :
    p.quotient ≤ p.rounded den := by
  unfold rounded
  split_ifs <;> omega

/-- The next digit is five or more from one half on. -/
theorem LongDivision.Divides.abs_sub_rounded_le {p : LongDivision} (h : p.Divides num den) :
    |(num / den : ℚ) * 10 ^ p.appended - p.rounded den| ≤ 1 / 2 := by
  have hden := Nat.zero_lt_of_lt h.remainder_lt
  have hpos : (0 : ℚ) < den := by exact_mod_cast hden
  have hlow : (0 : ℚ) ≤ p.remainder / den := by positivity
  have hhigh : (p.remainder : ℚ) / den < 1 := by
    rw [div_lt_one hpos]
    exact_mod_cast h.remainder_lt
  have hhalf : 5 ≤ 10 * p.remainder / den ↔ (1 / 2 : ℚ) ≤ p.remainder / den := by
    rw [Nat.le_div_iff_mul_le hden, le_div_iff₀ hpos, one_div_mul_eq_div, div_le_iff₀ (by norm_num)]
    norm_cast
    omega
  rw [h.quotient_eq, LongDivision.rounded, abs_le]
  split_ifs with hup
  · have hup' := hhalf.1 hup
    push_cast
    constructor <;> linarith
  · have hdown := not_le.1 (mt hhalf.2 hup)
    constructor <;> linarith

/-- Where long division stops. -/
def LongDivision.final (num den : ℕ) : LongDivision :=
  appendDigits den (longDigits - digitCount (num / den)) ⟨num / den, 0, num % den⟩

theorem longDivide_eq (num den : ℕ) : longDivide num den =
    ((LongDivision.final num den).rounded den, (LongDivision.final num den).appended) := by
  unfold longDivide LongDivision.rounded LongDivision.final
  dsimp only
  split_ifs <;> rfl

/-- The quotient is found, or its last digit is right to one half. -/
theorem longDivide_spec (hden : 0 < den) (hle : den ≤ num) :
    (num / den : ℚ) * 10 ^ (longDivide num den).2 = (longDivide num den).1 ∨
      longDigits ≤ digitCount (longDivide num den).1 ∧
        |(num / den : ℚ) * 10 ^ (longDivide num den).2 - (longDivide num den).1| ≤ 1 / 2 := by
  have hstart : LongDivision.Divides num den ⟨num / den, 0, num % den⟩ :=
    ⟨by rw [pow_zero, mul_one, mul_comm, Nat.div_add_mod], Nat.mod_lt _ hden⟩
  obtain ⟨hdiv, hend⟩ := hstart.appendDigits (longDigits - digitCount (num / den))
  rw [longDivide_eq]
  rcases hend with hzero | hlong
  · left
    rw [LongDivision.final, hdiv.quotient_eq, LongDivision.rounded, hzero]
    simp
  · right
    refine ⟨?_, hdiv.abs_sub_rounded_le⟩
    obtain ⟨c, hc⟩ : ∃ c, digitCount (num / den) = c + 1 := ⟨_, digitCount_eq _⟩
    have hstart_pos : num / den ≠ 0 := (Nat.div_pos hle hden).ne'
    refine lt_digitCount (k := 99) ?_
    calc 10 ^ 99 ≤ 10 ^ (c + (longDigits - (c + 1))) := by
          refine Nat.pow_le_pow_right (by norm_num) ?_
          unfold longDigits
          omega
      _ = 10 ^ c * 10 ^ (longDigits - (c + 1)) := pow_add ..
      _ ≤ num / den * 10 ^ (longDigits - (c + 1)) :=
        Nat.mul_le_mul_right _ (pow_le_of_digitCount hstart_pos hc)
      _ ≤ (LongDivision.final num den).quotient := hc ▸ hlong
      _ ≤ _ := LongDivision.quotient_le_rounded ..

theorem le_mul_ten_pow_shortfall {m n : ℕ} (hm : m ≠ 0) : n ≤ m * 10 ^ shortfall m n := by
  fun_induction shortfall m n with
  | case1 m h =>
    rw [pow_zero, mul_one]
    exact h.resolve_left hm
  | case2 m _ ih =>
    refine (ih (by omega)).trans (le_of_eq ?_)
    ring

end

/-- The decimal is the number, or differs from it by no more than one half of the last of at
    least `n` digits. -/
def Approximates (n : ℕ) (d : Decimal) (x : ℚ) : Prop :=
  x = d.value ∨ n ≤ digitCount d.digits.natAbs ∧ |x - d.value| ≤ 10 ^ (-d.scale) / 2

theorem value_of_isOne {d : Decimal} (h : d.isOne = true) : d.value = 1 := by
  simp only [isOne, Bool.and_eq_true, decide_eq_true_eq, beq_iff_eq] at h
  obtain ⟨⟨hscale, -⟩, hdigits⟩ := h
  rw [value, hdigits]
  push_cast
  rw [← zpow_natCast, Int.toNat_of_nonneg hscale, ← zpow_add₀ (by norm_num), add_neg_cancel,
    zpow_zero]

/-- The number, with the sign apart. -/
theorem value_eq_sign_mul (d : Decimal) :
    d.value = d.digits.sign * d.digits.natAbs * 10 ^ (-d.scale) := by
  rw [value, ← Int.cast_natCast d.digits.natAbs, ← Int.cast_mul, Int.sign_mul_natAbs]

theorem sign_mul_sign {z : ℤ} (hz : z ≠ 0) : z.sign * z.sign = 1 := by
  rcases lt_or_gt_of_ne hz with hneg | hpos
  · rw [Int.sign_eq_neg_one_of_neg hneg]
    rfl
  · rw [Int.sign_eq_one_of_pos hpos]
    rfl

/-- The quotient of the digits, the dividend filled up with zeros. -/
theorem div_value_eq (a : Decimal) {b : Decimal} (hb : b.digits ≠ 0) (k : ℕ) :
    a.value / b.value = (a.digits.sign * b.digits.sign : ℤ) *
      ((a.digits.natAbs * 10 ^ k : ℕ) / b.digits.natAbs) * 10 ^ (-(a.scale - b.scale + k)) := by
  have hsign : (b.digits.sign : ℚ) * b.digits.sign = 1 := by exact_mod_cast sign_mul_sign hb
  have hne : (b.digits.sign : ℚ) ≠ 0 := left_ne_zero_of_mul_eq_one hsign
  have habs : (b.digits.natAbs : ℚ) ≠ 0 := by exact_mod_cast Int.natAbs_ne_zero.2 hb
  have hunit := (ten_zpow_pos (-b.scale)).ne'
  have hplace : (10 : ℚ) ^ (-(a.scale - b.scale + k)) =
      10 ^ (-a.scale) / 10 ^ (-b.scale) / 10 ^ k := by
    rw [← zpow_natCast, ← zpow_sub₀ (by norm_num), ← zpow_sub₀ (by norm_num)]
    congr 1
    ring
  rw [a.value_eq_sign_mul, b.value_eq_sign_mul, hplace]
  push_cast
  field_simp
  rw [pow_two, hsign, mul_one]

/-- Sign and place are added to a quotient that was found or cut. -/
theorem approximates_signed {σ : ℤ} (hσ : σ.natAbs = 1) {z : ℚ} {q k : ℕ} (s : ℤ)
    (h : z * 10 ^ k = q ∨ n ≤ digitCount q ∧ |z * 10 ^ k - q| ≤ 1 / 2) :
    Approximates n ⟨σ * q, s + k⟩ (σ * z * 10 ^ (-s)) := by
  have hunit := ten_zpow_pos (-(s + k))
  have hsub : σ * z * 10 ^ (-s) - value ⟨σ * q, s + k⟩ =
      σ * (z * 10 ^ k - q) * 10 ^ (-(s + k)) := by
    have hplace : (10 : ℚ) ^ (-s) = 10 ^ k * 10 ^ (-(s + k)) := by
      rw [← ten_zpow_add]
      congr 1
      ring
    rw [value, hplace]
    push_cast
    ring
  rcases h with hz | ⟨hlong, hz⟩
  · left
    rw [← sub_eq_zero, hsub, hz, sub_self, mul_zero, zero_mul]
  · right
    have habs : |(σ : ℚ)| = 1 := by
      rw [← Int.cast_abs, Int.abs_eq_natAbs, hσ]
      rfl
    refine ⟨?_, ?_⟩
    · rw [Int.natAbs_mul, hσ, one_mul]
      exact hlong
    · rw [hsub, abs_mul, abs_mul, habs, one_mul, abs_of_pos hunit, div_eq_mul_one_div, mul_comm]
      exact mul_le_mul_of_nonneg_left hz hunit.le

/-- The quotient of two decimals is found, or cut. -/
theorem approximates_longQuotient (a : Decimal) {b : Decimal} (hb : b.digits ≠ 0) :
    (a.longQuotient b).Approximates longDigits (a.value / b.value) := by
  have hvalue : b.value ≠ 0 := mul_ne_zero (by exact_mod_cast hb) (ten_zpow_pos _).ne'
  unfold longQuotient
  split_ifs with hplain hsame
  · left
    rcases hplain with hzero | hone
    · rw [value, hzero, Int.cast_zero, zero_mul, zero_div]
    · rw [value_of_isOne hone, div_one]
  · left
    rw [div_eq_iff hvalue]
    simp only [value, hsame, Int.cast_one, one_mul]
    rw [mul_left_comm, ← zpow_add₀ (by norm_num)]
    congr 2
    ring
  · have hm : a.digits.natAbs ≠ 0 := by
      intro hzero
      exact hplain (Or.inl (Int.natAbs_eq_zero.1 hzero))
    have hn : b.digits.natAbs ≠ 0 := Int.natAbs_ne_zero.2 hb
    have hsign : (a.digits.sign * b.digits.sign).natAbs = 1 := by
      rw [Int.natAbs_mul, Int.natAbs_sign_of_ne_zero (Int.natAbs_ne_zero.1 hm),
        Int.natAbs_sign_of_ne_zero hb]
    rw [div_value_eq a hb (shortfall a.digits.natAbs b.digits.natAbs)]
    exact approximates_signed hsign _
      (longDivide_spec (Nat.pos_of_ne_zero hn) (le_mul_ten_pow_shortfall hm))

end Decimal

/-! ## Rounding twice -/

/-- In the middle between two numbers of `n` digits. -/
def Halfway (n : ℕ) (t : ℚ) : Prop := ∃ (e m : ℤ), Leading n t e ∧ t / 10 ^ e = m + 1 / 2

/-- By way of `t`, which is in the middle between two numbers of `n` digits, `x` went to the one
    on the other side. -/
def Misjudged (n : ℕ) (x t y : ℚ) : Prop :=
  Halfway n t ∧ (x < t ∧ t < y ∨ y < t ∧ t < x)

/-- The middle between the two nearest numbers is the middle between the two nearest integers. -/
theorem Leading.halfway_iff (h : Leading n t e) (hm : Nearest (t / 10 ^ e) m) :
    Halfway n t ↔ |t / 10 ^ e - m| = 1 / 2 := by
  constructor
  · rintro ⟨e', k, he', hk⟩
    obtain rfl := h.unique he'
    have hnear := hm.near
    rw [hk] at hnear ⊢
    have hlow : ((m - 1 : ℤ) : ℚ) ≤ k := by
      push_cast
      linarith [(abs_le.1 hnear).1]
    have hhigh : (k : ℚ) ≤ m := by linarith [(abs_le.1 hnear).2]
    have hcases : k = m ∨ k = m - 1 := by
      have hlow' : m - 1 ≤ k := by exact_mod_cast hlow
      have hhigh' : k ≤ m := by exact_mod_cast hhigh
      omega
    rcases hcases with rfl | rfl
    · norm_num
    · have hdiff : ((m - 1 : ℤ) : ℚ) + 1 / 2 - m = -(1 / 2) := by
        push_cast
        ring
      rw [hdiff, abs_neg]
      norm_num
  · intro habs
    rcases (abs_eq (by norm_num)).1 habs with hup | hdown
    · exact ⟨e, m, h, by linarith⟩
    · refine ⟨e, m - 1, h, ?_⟩
      push_cast
      linarith

/-- Fractions with an even denominator are in the middle, or well off it. -/
theorem off_middle_of_even {q : ℚ} {z den : ℤ} (hq : q * den = z) (hden : 0 < den)
    (heven : Even den) (h : |q - m| < 1 / 2) : 2 * (|q - m| * den) + 2 ≤ den := by
  have hpos : (0 : ℚ) < den := by exact_mod_cast hden
  have hscaled : |q - m| * den = |z - m * den| := by
    have hprod : |(q - m) * den| = |q - m| * den := by rw [abs_mul, abs_of_pos hpos]
    rw [← hprod, sub_mul, hq]
    push_cast
    rfl
  have hlt : 2 * (|q - m| * den) < den := by
    have hmul := mul_lt_mul_of_pos_right h hpos
    linarith
  rw [hscaled] at hlt ⊢
  have hlt : 2 * |z - m * den| < den := by exact_mod_cast hlt
  have hroom : 2 * |z - m * den| + 2 ≤ den := by
    obtain ⟨c, hc⟩ := heven
    omega
  exact_mod_cast hroom

/-- Small changes do not change nearest integers, but in the middle. -/
theorem nearest_iff_of_near {q : ℚ} {z den : ℤ} (hq : q * den = z) (hden : 0 < den)
    (heven : Even den) (hm : Nearest q m) (hx : |x - q| * den ≤ 1 / 2) :
    Nearest x m ↔ ¬(|q - m| = 1 / 2 ∧ (x < q ∧ q < m ∨ m < q ∧ q < x)) := by
  have hpos : (1 : ℚ) ≤ den := by exact_mod_cast hden
  by_cases hhalf : |q - m| = 1 / 2
  · -- In the middle, all that counts is the side on which `x` is.
    have hclose : |x - q| ≤ 1 / 2 := (le_mul_of_one_le_right (abs_nonneg _) hpos).trans hx
    have hiff : Nearest x m ↔ |x - m| ≤ 1 / 2 :=
      ⟨fun h => h.near, fun h => ⟨h, fun _ => hm.even hhalf⟩⟩
    rw [abs_le] at hclose
    rw [hiff, abs_le]
    rcases (abs_eq (by norm_num)).1 hhalf with hup | hdown
    · constructor
      · rintro hle ⟨-, ⟨-, hlt⟩ | ⟨-, hlt⟩⟩ <;> linarith [hle.2]
      · intro hside
        have hxq : x ≤ q := not_lt.1 fun hlt => hside ⟨hhalf, Or.inr ⟨by linarith, hlt⟩⟩
        constructor <;> linarith [hclose.1]
    · constructor
      · rintro hle ⟨-, ⟨hlt, -⟩ | ⟨hlt, -⟩⟩ <;> linarith [hle.1]
      · intro hside
        have hqx : q ≤ x := not_lt.1 fun hlt => hside ⟨hhalf, Or.inl ⟨hlt, by linarith⟩⟩
        constructor <;> linarith [hclose.2]
  · -- Elsewhere there is room for the change.
    refine iff_of_true (.of_lt ?_) fun h => hhalf h.1
    have hroom := off_middle_of_even hq hden heven (lt_of_le_of_ne hm.near hhalf)
    have hmul : |x - m| * den ≤ (|x - q| + |q - m|) * den :=
      mul_le_mul_of_nonneg_right (abs_sub_le ..) (by linarith)
    rw [← mul_lt_mul_iff_left₀ (zero_lt_one.trans_le hpos)]
    linarith

/-- A number just below a power of ten is rounded to it. -/
theorem roundsTo_of_below_power (ht : |t| = 10 ^ (e + n)) (hx : |x| < |t|)
    (hnear : |x - t| < 10 ^ e / 2) : RoundsTo n x t := by
  have hunit := Decimal.ten_zpow_pos e
  have hlead : Leading n x e := by
    refine ⟨?_, ht ▸ hx⟩
    have hpow : (10 : ℚ) ^ (e + n) = 10 * 10 ^ (e + n - 1) := by
      rw [← zpow_one_add₀ (by norm_num)]
      congr 1
      ring
    have hle : (10 : ℚ) ^ e ≤ 10 ^ (e + n) := zpow_le_zpow_right₀ (by norm_num) (by omega)
    have hdist : |t| - |x| ≤ |x - t| := by
      rw [abs_sub_comm]
      exact abs_sub_abs_le_abs_sub t x
    linarith
  have hpow : (10 : ℚ) ^ (e + n) = 10 ^ n * 10 ^ e := by
    rw [add_comm, Decimal.ten_zpow_add]
  obtain ⟨m, hm⟩ : ∃ m : ℤ, t = m * 10 ^ e := by
    rw [hpow] at ht
    rcases (abs_eq (by positivity)).1 ht with h | h
    · exact ⟨10 ^ n, by rw [h]; push_cast; rfl⟩
    · exact ⟨-10 ^ n, by rw [h]; push_cast; ring⟩
  have hclose : |x / 10 ^ e - m| < 1 / 2 := by
    have hdiff : x / 10 ^ e - m = (x - t) / 10 ^ e := by
      rw [hm]
      field_simp
    rw [hdiff, abs_div, abs_of_pos hunit, div_lt_iff₀ hunit]
    linarith
  rw [hm]
  exact .digits hlead (.of_lt hclose)

namespace Decimal

/-- A power of ten has one digit. -/
theorem roundsTo_power (hn : 0 < n) (ht : |t| = 10 ^ e) : RoundsTo n t t := by
  obtain ⟨σ, hσ, hvalue⟩ : ∃ σ : ℤ, σ.natAbs = 1 ∧ t = value ⟨σ, -e⟩ := by
    rcases (abs_eq (ten_zpow_pos e).le).1 ht with h | h
    · exact ⟨1, rfl, by rw [h, value]; simp⟩
    · exact ⟨-1, rfl, by rw [h, value]; simp⟩
  rw [hvalue]
  refine roundsTo_self ?_
  rw [hσ, digitCount_eq]
  exact hn

section
variable {d : Decimal} {k : ℕ}

theorem digits_ne_zero_of_lt (h : 1 < digitCount d.digits.natAbs) : d.digits ≠ 0 := by
  intro hzero
  rw [hzero, Int.natAbs_zero, digitCount_eq, Nat.log_zero_right] at h
  omega

/-- A small change does not lead to further digits. -/
theorem abs_lt_of_near (hk : digitCount d.digits.natAbs = n + k)
    (hx : |x - d.value| ≤ 10 ^ (-d.scale) / 2) : |x| < 10 ^ (k - d.scale + n) := by
  have hunit := ten_zpow_pos (-d.scale)
  have hdigits : (d.digits.natAbs : ℚ) + 1 ≤ 10 ^ (n + k) := by
    exact_mod_cast hk ▸ lt_pow_digitCount d.digits.natAbs
  have hpow : (10 : ℚ) ^ (k - d.scale + n) = 10 ^ (n + k) * 10 ^ (-d.scale) := by
    rw [← ten_zpow_add]
    congr 1
    push_cast
    ring
  have hvalue := mul_le_mul_of_nonneg_right hdigits hunit.le
  rw [add_mul, one_mul, ← abs_value, ← hpow] at hvalue
  have hdist := abs_sub_abs_le_abs_sub x d.value
  linarith

/-- A small change leads to fewer digits from a power of ten only. -/
theorem abs_value_eq_power (hd : d.digits ≠ 0) (hk : digitCount d.digits.natAbs = n + k)
    (hx : |x - d.value| ≤ 10 ^ (-d.scale) / 2) (hlt : |x| < 10 ^ (k - d.scale + n - 1)) :
    |d.value| = 10 ^ (k - d.scale + n - 1) := by
  have hunit := ten_zpow_pos (-d.scale)
  obtain ⟨j, hj⟩ : ∃ j, digitCount d.digits.natAbs = j + 1 := ⟨_, digitCount_eq _⟩
  have hpow : (10 : ℚ) ^ (k - d.scale + n - 1) = 10 ^ j * 10 ^ (-d.scale) := by
    rw [← ten_zpow_add]
    congr 1
    omega
  have hdist : |d.value| - |x| ≤ |x - d.value| := by
    rw [abs_sub_comm]
    exact abs_sub_abs_le_abs_sub d.value x
  have hhigh : (d.digits.natAbs : ℚ) < 10 ^ j + 1 := by
    rw [← mul_lt_mul_iff_left₀ hunit, add_mul, one_mul, ← abs_value, ← hpow]
    linarith
  have hdigits : d.digits.natAbs = 10 ^ j := by
    have hhigh : d.digits.natAbs < 10 ^ j + 1 := by exact_mod_cast hhigh
    have hlow := pow_le_of_digitCount (Int.natAbs_ne_zero.2 hd) hj
    omega
  rw [abs_value, hdigits, hpow]
  push_cast
  rfl

/-- A change by half of the last digit, counted in units of a place in front of it. -/
theorem abs_sub_div_le (k : ℕ) (hx : |x - d.value| ≤ 10 ^ (-d.scale) / 2) :
    |x / 10 ^ (k - d.scale) - d.value / 10 ^ (k - d.scale)| * (10 ^ k : ℤ) ≤ 1 / 2 := by
  have hplace : (10 : ℚ) ^ (k - d.scale) = 10 ^ k * 10 ^ (-d.scale) := by
    rw [sub_eq_add_neg, ten_zpow_add]
  have hcancel : |x - d.value| / (10 ^ k * 10 ^ (-d.scale)) * 10 ^ k =
      |x - d.value| / 10 ^ (-d.scale) := by field_simp
  rw [← sub_div, abs_div, abs_of_pos (ten_zpow_pos _), hplace]
  push_cast
  rw [hcancel, div_le_iff₀ (ten_zpow_pos _)]
  linarith

/-- A change that leads to fewer digits leads away from a power of ten, and is made good by
    rounding. -/
theorem roundsTo_of_fewer_digits (hn : 0 < n) (hd : d.digits ≠ 0)
    (hk : digitCount d.digits.natAbs = n + k) (hlong : 1 < k)
    (hx : |x - d.value| ≤ 10 ^ (-d.scale) / 2) (hlt : |x| < 10 ^ (k - d.scale + n - 1)) :
    RoundsTo n x d.value ∧ RoundsTo n d.value d.value := by
  have hpower := abs_value_eq_power hd hk hx hlt
  have hplace : (k - d.scale + n - 1 : ℤ) = k - d.scale - 1 + n := by ring
  have hlast : (10 : ℚ) ^ (-d.scale) < 10 ^ (k - d.scale - 1) :=
    zpow_lt_zpow_right₀ (by norm_num) (by omega)
  refine ⟨?_, roundsTo_power hn hpower⟩
  refine roundsTo_of_below_power (e := k - d.scale - 1) (hplace ▸ hpower) (hpower ▸ hlt) ?_
  linarith

/-- A number that is rounded twice is rounded correctly, unless that puts it on the other side of
    the middle. -/
theorem roundsTo_roundTo_iff (hn : 0 < n) (hp : n + 1 < p) (h : d.Approximates p x) :
    RoundsTo n x (d.roundTo n).value ↔ ¬Misjudged n x d.value (d.roundTo n).value := by
  have hround := d.roundsTo_roundTo n
  rcases h with rfl | ⟨hlong, hx⟩
  · refine iff_of_true hround ?_
    rintro ⟨-, ⟨hlt, -⟩ | ⟨-, hlt⟩⟩ <;> exact lt_irrefl _ hlt
  have hd := digits_ne_zero_of_lt (show 1 < digitCount d.digits.natAbs by omega)
  obtain ⟨k, hk⟩ := Nat.exists_eq_add_of_le (show n ≤ digitCount d.digits.natAbs by omega)
  by_cases hlow : 10 ^ (k - d.scale + n - 1) ≤ |x|
  · -- The leading digits of both end at one place, where the nearest integers are compared.
    have hplace : (digitCount d.digits.natAbs - n - d.scale : ℤ) = k - d.scale := by
      rw [hk]
      push_cast
      ring
    have hlead : Leading n d.value (k - d.scale) := hplace ▸ leading_value n hd
    have hxlead : Leading n x (k - d.scale) := ⟨hlow, abs_lt_of_near hk hx⟩
    obtain ⟨m, hy, hm⟩ := hlead.exists_of_roundsTo hround
    have hunit := ten_zpow_pos (k - d.scale)
    have hq : d.value / 10 ^ (k - d.scale) * (10 ^ k : ℤ) = d.digits := by
      rw [value_div]
      push_cast
      field_simp
    have heven : Even (10 ^ k : ℤ) := Even.pow_of_ne_zero (by decide) (by omega)
    rw [hy, hxlead.roundsTo_iff,
      nearest_iff_of_near hq (by positivity) heven hm (abs_sub_div_le k hx), Misjudged,
      hlead.halfway_iff hm, div_lt_div_iff_of_pos_right hunit, div_lt_div_iff_of_pos_right hunit,
      div_lt_iff₀ hunit, lt_div_iff₀ hunit]
  · obtain ⟨hxd, hdd⟩ := roundsTo_of_fewer_digits hn hd hk (by omega) hx (not_le.1 hlow)
    rw [hround.unique hdd]
    refine iff_of_true hxd ?_
    rintro ⟨-, ⟨-, hlt⟩ | ⟨hlt, -⟩⟩ <;> exact lt_irrefl _ hlt

/-- What is cut off is small beside the number. -/
theorem Approximates.abs_sub_le (hp : 1 < p) (h : d.Approximates p x) :
    2 * 10 ^ (p - 1) * |x - d.value| ≤ |d.value| := by
  rcases h with rfl | ⟨hlong, hx⟩
  · rw [sub_self, abs_zero, mul_zero]
    exact abs_nonneg _
  have hd := digits_ne_zero_of_lt (hp.trans_le hlong)
  obtain ⟨j, hj⟩ : ∃ j, digitCount d.digits.natAbs = j + 1 := ⟨_, digitCount_eq _⟩
  have hdigits : (10 : ℚ) ^ (p - 1) ≤ d.digits.natAbs := by
    have hle : 10 ^ (p - 1) ≤ 10 ^ j := Nat.pow_le_pow_right (by norm_num) (by omega)
    exact_mod_cast hle.trans (pow_le_of_digitCount (Int.natAbs_ne_zero.2 hd) hj)
  calc 2 * 10 ^ (p - 1) * |x - d.value| ≤ 2 * 10 ^ (p - 1) * (10 ^ (-d.scale) / 2) :=
        mul_le_mul_of_nonneg_left hx (by positivity)
    _ = 10 ^ (p - 1) * 10 ^ (-d.scale) := by ring
    _ ≤ d.digits.natAbs * 10 ^ (-d.scale) :=
      mul_le_mul_of_nonneg_right hdigits (ten_zpow_pos _).le
    _ = |d.value| := d.abs_value.symm

end

end Decimal

/-! ## Quotients -/

/-- Decimals have a quotient, unless the divisor is zero. -/
theorem World.arithmetic_div (w : World) (a : Decimal) {b : Decimal} (hb : b.digits ≠ 0) :
    w.arithmetic .div (.decimal a) (.decimal b) = .ok (.decimal (a.div b)) := by
  rw [World.arithmetic, BinaryOperator.onDecimals, if_neg hb]
  rfl

/-- **Division rounds correctly, but for one case.**  The quotient by a decimal other than zero
    has no trailing zeros.  It is the exact quotient, rounded once to 34 digits, exactly if being
    cut in 100 digits did not put it on the middle between two numbers of 34 digits, and from
    there on the wrong side.  The cut alone changes it by less than one part in 10 ^ 99. -/
theorem division_rounds_iff (w : World) (a : Decimal) {b : Decimal} (hb : b.digits ≠ 0) :
    w.arithmetic .div (.decimal a) (.decimal b) = .ok (.decimal (a.div b)) ∧
      (a.div b).Normal ∧
      (RoundsTo Decimal.precision (a.value / b.value) (a.div b).value ↔
        ¬Misjudged Decimal.precision (a.value / b.value) (a.longQuotient b).value (a.div b).value) ∧
      2 * 10 ^ 99 * |a.value / b.value - (a.longQuotient b).value| ≤ |(a.longQuotient b).value| := by
  have hlong := Decimal.approximates_longQuotient a hb
  have hcut := hlong.abs_sub_le (by decide)
  rw [show Decimal.longDigits - 1 = 99 from rfl] at hcut
  refine ⟨w.arithmetic_div a hb, Decimal.normal_normalized _, ?_, hcut⟩
  rw [Decimal.div, Decimal.value_normalized]
  exact Decimal.roundsTo_roundTo_iff (by decide) (by decide) hlong

/-- Two thirds are rounded up, although they lie below the cut quotient. -/
theorem division_rounds_iff_two_thirds :
    (⟨3, 0⟩ : Decimal).digits ≠ 0 ∧
      (default : World).arithmetic .div (.decimal ⟨2, 0⟩) (.decimal ⟨3, 0⟩) =
        .ok (.decimal ⟨6666666666666666666666666666666667, 34⟩) ∧
      RoundsTo Decimal.precision (Decimal.value ⟨2, 0⟩ / Decimal.value ⟨3, 0⟩)
        (Decimal.value ⟨6666666666666666666666666666666667, 34⟩) := by
  have hdiv : (⟨2, 0⟩ : Decimal).div ⟨3, 0⟩ = ⟨6666666666666666666666666666666667, 34⟩ := by
    decide +kernel
  have hlong : (⟨2, 0⟩ : Decimal).longQuotient ⟨3, 0⟩ = ⟨(2 * 10 ^ 100 + 1) / 3, 100⟩ := by
    decide +kernel
  have hne : (⟨3, 0⟩ : Decimal).digits ≠ 0 := by decide
  obtain ⟨harith, -, hiff, -⟩ := division_rounds_iff default ⟨2, 0⟩ hne
  rw [hdiv] at harith hiff
  rw [hlong] at hiff
  refine ⟨hne, harith, hiff.2 ?_⟩
  rintro ⟨hhalf, -⟩
  have hlead : Leading Decimal.precision (Decimal.value ⟨(2 * 10 ^ 100 + 1) / 3, 100⟩) (-34) := by
    constructor <;> norm_num [Decimal.value, Decimal.precision]
  have hnear : |Decimal.value ⟨(2 * 10 ^ 100 + 1) / 3, 100⟩ / 10 ^ (-34 : ℤ) -
      (6666666666666666666666666666666667 : ℤ)| < 1 / 2 := by
    norm_num [Decimal.value, abs_lt]
  rw [hlead.halfway_iff (.of_lt hnear)] at hhalf
  exact hnear.ne hhalf

/-- A quotient just above the middle between two numbers of 34 digits. -/
def aboveMiddle : Decimal × Decimal := (⟨(2 * 10 ^ 33 + 1) * 10 ^ 67 + 1, 0⟩, ⟨2 * 10 ^ 67, 0⟩)

/-- The quotient is put on the middle and goes to the even neighbour below, instead of the one
    above. -/
theorem quotient_above_middle_misrounded :
    aboveMiddle.2.digits ≠ 0 ∧
      (default : World).arithmetic .div (.decimal aboveMiddle.1) (.decimal aboveMiddle.2) =
        .ok (.decimal ⟨1, -33⟩) ∧
      RoundsTo Decimal.precision (aboveMiddle.1.value / aboveMiddle.2.value) (10 ^ 33 + 1) ∧
      ¬RoundsTo Decimal.precision (aboveMiddle.1.value / aboveMiddle.2.value)
        (Decimal.value ⟨1, -33⟩) := by
  have hquotient : aboveMiddle.1.value / aboveMiddle.2.value = 10 ^ 33 + 1 / 2 + 5 / 10 ^ 68 := by
    norm_num [aboveMiddle, Decimal.value]
  have hright : RoundsTo Decimal.precision (10 ^ 33 + 1 / 2 + 5 / 10 ^ 68) (10 ^ 33 + 1) := by
    have hlead : Leading Decimal.precision (10 ^ 33 + 1 / 2 + 5 / 10 ^ 68) 0 := by
      constructor <;> norm_num [Decimal.precision]
    have hnear : Nearest ((10 ^ 33 + 1 / 2 + 5 / 10 ^ 68) / 10 ^ (0 : ℤ)) (10 ^ 33 + 1) := by
      refine .of_lt ?_
      norm_num [abs_lt]
    have hround := RoundsTo.digits hlead hnear
    rw [zpow_zero, mul_one] at hround
    exact_mod_cast hround
  have hne : aboveMiddle.2.digits ≠ 0 := by decide +kernel
  have hdiv : aboveMiddle.1.div aboveMiddle.2 = ⟨1, -33⟩ := by decide +kernel
  rw [hquotient]
  refine ⟨hne, ?_, hright, fun h => ?_⟩
  · rw [World.arithmetic_div _ _ hne, hdiv]
  · have hsame := hright.unique h
    norm_num [Decimal.value] at hsame

end TinyScript
