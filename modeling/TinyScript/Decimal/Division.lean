import TinyScript.Decimal.Basic

/-
  Division of decimals to 34 significant digits.

  A quotient is formed in two steps.  Long division produces up to 100 digits,
  the last one rounded by the digit after it (`longQuotient`); the result is
  then rounded to 34 significant digits, a half going to the even neighbour
  (`roundTo`), and stored without trailing zeros.
-/

namespace TinyScript

attribute [local instance (high)] instPowNat

namespace Decimal

/-- The integer nearest to `num / den`; of two equally near ones the even. -/
def roundHalfEven (num den : Nat) : Nat :=
  let q := num / den
  let twice := 2 * (num % den)
  if twice < den then q
  else if den < twice then q + 1
  else if q % 2 = 0 then q
  else q + 1

/-! ## Long division -/

/-- The digits at which long division stops. -/
def longDigits : Nat := 100

/-- The significant digits kept of a quotient. -/
def precision : Nat := 34

/-- How often `m` must be multiplied by ten to reach `n`. -/
def shortfall (m n : Nat) : Nat :=
  if m = 0 ∨ n ≤ m then 0 else shortfall (10 * m) n + 1
termination_by n - m

/-- A quotient under construction: the digits so far, how many of them were
    appended, and the remainder. -/
structure LongDivision where
  /-- The digits so far. -/
  quotient : Nat
  /-- How many digits were appended. -/
  appended : Nat
  /-- What is left to divide. -/
  remainder : Nat

/-- Appends up to `n` further digits, as long as there is a remainder. -/
def LongDivision.appendDigits (den : Nat) : Nat → LongDivision → LongDivision
  | 0, p => p
  | n + 1, p =>
    if p.remainder = 0 then p
    else
      LongDivision.appendDigits den n
        ⟨10 * p.quotient + 10 * p.remainder / den, p.appended + 1, 10 * p.remainder % den⟩

/-- The digits of `num / den` cut at `longDigits` digits, the last one rounded up
    if the next digit is five or more, with the number of digits appended to
    the integer quotient. -/
def longDivide (num den : Nat) : Nat × Nat :=
  let start := num / den
  let p := LongDivision.appendDigits den (longDigits - digitCount start) ⟨start, 0, num % den⟩
  if 5 ≤ 10 * p.remainder / den then (p.quotient + 1, p.appended) else (p.quotient, p.appended)

/-- The quotient of two decimals by long division, for a nonzero divisor. -/
def longQuotient (a b : Decimal) : Decimal :=
  if a.digits = 0 ∨ b.isOne then a
  else if a.digits = b.digits then ⟨1, a.scale - b.scale⟩
  else
    let m := a.digits.natAbs
    let n := b.digits.natAbs
    let shift := shortfall m n
    let (q, appended) := longDivide (m * 10 ^ shift) n
    ⟨a.digits.sign * b.digits.sign * q, a.scale - b.scale + shift + appended⟩

/-! ## Rounding -/

/-- The decimal rounded to at most `n` significant digits, a half going to the
    even neighbour. -/
def roundTo (n : Nat) (d : Decimal) : Decimal :=
  let excess := digitCount d.digits.natAbs - n
  ⟨d.digits.sign * roundHalfEven d.digits.natAbs (10 ^ excess), d.scale - excess⟩

/-- The quotient of two decimals, for a nonzero divisor. -/
def div (a b : Decimal) : Decimal := ((longQuotient a b).roundTo precision).normalized

end Decimal

end TinyScript
