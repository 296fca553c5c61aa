/-
  Decimals of unbounded size: a number `digits · 10^(-scale)`.

  A decimal keeps its written form: `1.5` and `1.50` are the same number with
  different digits and scale, and every operation says which form its result
  has.

  * `add`, `sub`, `mul`: exact arithmetic;
  * `normalized`: the form without trailing zero digits;
  * `text`: plain notation, always with a decimal point.
-/

namespace TinyScript

-- A power is `Nat.pow` or `Int.pow`, also where other instances are in scope.
attribute [local instance (high)] instPowNat

/-- The number `digits · 10^(-scale)`. -/
structure Decimal where
  /-- All digits, with the sign. -/
  digits : Int
  /-- How many of the digits stand after the point. -/
  scale : Int
deriving DecidableEq, Inhabited

namespace Decimal

/-! ## Digits of natural numbers -/

/-- The number of decimal digits of `n`; zero has one. -/
def digitCount (n : Nat) : Nat :=
  if n < 10 then 1 else digitCount (n / 10) + 1
termination_by n

/-- The number of zeros that end the digits of `n`; none for zero. -/
def trailingZeros (n : Nat) : Nat :=
  if n = 0 then 0
  else if n % 10 = 0 then trailingZeros (n / 10) + 1
  else 0
termination_by n

/-! ## Forms of a number -/

/-- The same number with `n` more digits after the point. -/
def extend (d : Decimal) (n : Nat) : Decimal := ⟨d.digits * 10 ^ n, d.scale + n⟩

/-- The digits of the number when `scale` digits stand after the point, for a
    scale not below its own.  Zero is zero at any scale, however far off. -/
def digitsAt (d : Decimal) (scale : Int) : Int :=
  if d.digits = 0 then 0 else d.digits * 10 ^ (scale - d.scale).toNat

theorem digitsAt_eq (d : Decimal) (scale : Int) :
    d.digitsAt scale = d.digits * 10 ^ (scale - d.scale).toNat := by
  unfold digitsAt
  split
  · next h => simp [h]
  · rfl

/-- The form without trailing zero digits; zero has scale 0. -/
def normalized (d : Decimal) : Decimal :=
  if d.digits = 0 then ⟨0, 0⟩
  else
    let zeros := trailingZeros d.digits.natAbs
    ⟨d.digits.tdiv (10 ^ zeros), d.scale - zeros⟩

/-- Whether the number is one, written with at most 38 digits after the point. -/
def isOne (d : Decimal) : Bool :=
  decide (0 ≤ d.scale) && decide (d.scale ≤ 38) && d.digits == 10 ^ d.scale.toNat

/-! ## Arithmetic -/

/-- The most digits a zero summand can add after the point. -/
def zeroPadding : Nat := 15

/-- The sum.  Its scale is the larger one; a zero summand raises the scale of
    the other by at most `zeroPadding`. -/
def add (a b : Decimal) : Decimal :=
  if b.digits = 0 then a.extend (min zeroPadding (b.scale - a.scale).toNat)
  else if a.digits = 0 then b.extend (min zeroPadding (a.scale - b.scale).toNat)
  else
    let scale := max a.scale b.scale
    ⟨a.digitsAt scale + b.digitsAt scale, scale⟩

/-- The difference, at the larger scale. -/
def sub (a b : Decimal) : Decimal :=
  let scale := max a.scale b.scale
  ⟨a.digitsAt scale - b.digitsAt scale, scale⟩

/-- The product, at the sum of the scales; a factor one normalizes the other. -/
def mul (a b : Decimal) : Decimal :=
  if a.isOne then b.normalized
  else if b.isOne then a.normalized
  else ⟨a.digits * b.digits, a.scale + b.scale⟩

/-! ## Text -/

/-- The unsigned text of `n · 10^(-scale)`: `scale` digits after the point, and
    at least one digit on either side of it. -/
def unsignedText (n : Nat) (scale : Int) : List Char :=
  let ds := (Nat.repr n).toList
  if scale ≤ 0 then ds ++ List.replicate scale.natAbs '0' ++ ['.', '0']
  else
    let places := scale.toNat
    if places < ds.length then
      ds.take (ds.length - places) ++ '.' :: ds.drop (ds.length - places)
    else '0' :: '.' :: (List.replicate (places - ds.length) '0' ++ ds)

/-- The number in plain notation. -/
def text (d : Decimal) : String :=
  let body := unsignedText d.digits.natAbs d.scale
  String.ofList (if d.digits < 0 then '-' :: body else body)

end Decimal

end TinyScript
