import TinyScript.Decimal.Binary64

/-
  The shortest decimal that reads back as a given double.

  The numbers that round to a double form an interval around it, its ends
  included exactly when the significand is even.  On the grid of numbers with
  one significant digit, then two, and so on, the two neighbours of the double
  are tested; the first grid with a neighbour in the interval gives the digits.
  Of two such neighbours the nearer is taken, and the upper one if both are
  equally near.
-/

namespace TinyScript

attribute [local instance (high)] instPowNat

namespace Binary64

/-- The interval of the numbers that round to a double, and the double itself,
    as multiples of `unitNum / unitDen`. -/
structure Interval where
  /-- The lower end. -/
  low : Nat
  /-- The double. -/
  mid : Nat
  /-- The upper end. -/
  high : Nat
  /-- Whether the ends belong to it. -/
  closed : Bool
  /-- The numerator of the unit. -/
  unitNum : Nat
  /-- The denominator of the unit. -/
  unitDen : Nat

/-- The interval of a finite nonzero double. -/
def interval (bits : Nat) : Interval :=
  let (m, e) := decode bits
  -- the gap below a power of two is half as wide
  let narrow := m = 2 ^ (52 : Nat) ∧ -1074 < e
  { low := 4 * m - (if narrow then 1 else 2)
    mid := 4 * m
    high := 4 * m + 2
    closed := m % 2 = 0
    unitNum := 2 ^ (e - 2).toNat
    unitDen := 2 ^ (2 - e).toNat }

/-- Whether `n · 10^p` lies in the interval. -/
def Interval.contains (i : Interval) (n : Nat) (p : Int) : Bool :=
  let x := n * 10 ^ p.toNat * i.unitDen
  let unit := i.unitNum * 10 ^ (-p).toNat
  if i.closed then decide (i.low * unit ≤ x) && decide (x ≤ i.high * unit)
  else decide (i.low * unit < x) && decide (x < i.high * unit)

/-- The exponent of the leading digit of `num / den`. -/
def leadingExponent (num den : Nat) : Int :=
  if den ≤ num then (Decimal.digitCount (num / den) : Int) - 1
  else -(Decimal.digitCount ((den + num - 1) / num - 1) : Int)

/-- The neighbour of `num / den` chosen on the grid `10^p`, if one lies in the
    interval. -/
def Interval.onGrid (i : Interval) (p : Int) : Option Nat :=
  let num := i.mid * i.unitNum * 10 ^ (-p).toNat
  let den := i.unitDen * 10 ^ p.toNat
  let below := num / den
  match i.contains below p, i.contains (below + 1) p with
  | true, true => some (if 2 * (num % den) < den then below else below + 1)
  | true, false => some below
  | false, true => some (below + 1)
  | false, false => none

/-- Tries the grids from `10^p` on downwards, `n` of them.  Seventeen always
    suffice; beyond them only the integer part is left. -/
def Interval.firstGrid (i : Interval) : Nat → Int → Decimal
  | 0, _ => ⟨i.mid * i.unitNum / i.unitDen, 0⟩
  | n + 1, p =>
    match i.onGrid p with
    | some digits => ⟨digits, -p⟩
    | none => i.firstGrid n (p - 1)

/-- The shortest decimal that reads back as the finite double with these bits, in
    positional notation: without digits after the point its scale is 0. -/
def shortest (bits : Nat) : Decimal :=
  if bits = 0 then ⟨0, 0⟩
  else
    let i := interval bits
    let p := leadingExponent (i.mid * i.unitNum) i.unitDen
    let d := (i.firstGrid 17 p).normalized
    d.extend (-d.scale).toNat

/-- The decimal written for the double with these bits, sign included, unless it
    is infinite or no number. -/
def toDecimal? (bits : UInt64) : Option Decimal :=
  let magnitude := bits.toNat % 2 ^ (63 : Nat)
  if infinity ≤ magnitude then none
  else
    let d := shortest magnitude
    some (if 2 ^ (63 : Nat) ≤ bits.toNat then { d with digits := -d.digits } else d)

end Binary64

/-- The natural logarithm, computed in doubles and written with the fewest digits
    that read back.  Numbers beyond the doubles, and logarithms that are not
    finite, have none. -/
def Decimal.logarithm? (d : Decimal) : Option Decimal := do
  let bits ← d.toBinary64?
  Binary64.toDecimal? (Float.ofBits bits).log.toBits

end TinyScript
