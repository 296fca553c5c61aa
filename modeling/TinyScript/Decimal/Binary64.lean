import TinyScript.Decimal.Division

/-
  Binary floating point with 64 bits, as far as decimals need it.

  A nonnegative double is given by its bits as a natural number: the finite ones
  are the numbers below `infinity` in increasing order.  All arithmetic is exact
  integer arithmetic with one rounding at the end, a half going to the even
  neighbour.

  * `Binary64.round`: the double nearest to a fraction;
  * `Binary64.mul`, `Binary64.tenTo`: products and powers of ten in doubles;
  * `Decimal.toBinary64?`: the double for a decimal, if it is finite.
-/

namespace TinyScript

attribute [local instance (high)] instPowNat

namespace Binary64

/-- The bits of infinity. -/
def infinity : Nat := 2047 * 2 ^ (52 : Nat)

/-- The number of bits of `n`; zero has none. -/
def bitLength (n : Nat) : Nat := if n = 0 then 0 else n.log2 + 1

/-- The exponent `e` at which `num / den` has a significand of 53 bits, or the
    least exponent there is. -/
def exponent (num den : Nat) : Int :=
  let e : Int := (num.log2 : Int) - den.log2 - 52
  -- one too large when the leading bits of `num` are below those of `den`
  let tooLarge : Bool := num * 2 ^ (-e).toNat < den * 2 ^ e.toNat * 2 ^ (52 : Nat)
  max (-1074) (if tooLarge then e - 1 else e)

/-- The bits of the double nearest to `num / den`. -/
def round (num den : Nat) : Nat :=
  if num = 0 then 0
  else
    let e := exponent num den
    let significand := Decimal.roundHalfEven (num * 2 ^ (-e).toNat) (den * 2 ^ e.toNat)
    min infinity ((e + 1074).toNat * 2 ^ (52 : Nat) + significand)

/-- The significand and exponent of a finite double: its value is `m · 2^e`. -/
def decode (bits : Nat) : Nat × Int :=
  let field : Nat := bits / 2 ^ (52 : Nat)
  let fraction : Nat := bits % 2 ^ (52 : Nat)
  if field = 0 then (fraction, -1074) else (2 ^ (52 : Nat) + fraction, (field : Int) - 1075)

/-- The product of two doubles that are not zero. -/
def mul (a b : Nat) : Nat :=
  if infinity ≤ a ∨ infinity ≤ b then infinity
  else
    let (m, e) := decode a
    let (n, f) := decode b
    round (m * n * 2 ^ (e + f).toNat) (2 ^ (-(e + f)).toNat)

/-- The integer part of a finite double. -/
def floor (bits : Nat) : Nat :=
  let (m, e) := decode bits
  m * 2 ^ e.toNat / 2 ^ (-e).toNat

/-- Multiplies `acc` by `base` to the power `n` by repeated squaring, every
    product rounded to a double. -/
def powInto (acc base n : Nat) : Nat :=
  let acc' := if n % 2 = 1 then mul acc base else acc
  if n / 2 = 0 then acc' else powInto acc' (mul base base) (n / 2)
termination_by n
decreasing_by omega

/-- The double computed for `10^n`. -/
def tenTo (n : Nat) : Nat := powInto (round 1 1) (round 10 1) n

/-- The double nearest to the decimal logarithm of two. -/
def log10Two : Nat := 0x3FD34413509F79FF

/-- An upper estimate of the decimal digits of `n`, computed in doubles. -/
def digitEstimate (n : Nat) : Nat := floor (mul (round (bitLength n + 1) 1) log10Two)

/-- The double nearest to `n / 10^places`.  A number below `10^(-330)` is nearer to
    zero than to any other double. -/
def ofFraction (n places : Nat) : Nat :=
  if Decimal.digitCount n + 330 < places then 0 else round n (10 ^ places)

/-- The double for `n · 10^(-scale)`.  Groups of nineteen digits beyond the first
    twenty-five or so are cut off before rounding. -/
def ofScaled (n : Nat) (scale : Int) : Nat :=
  if n = 0 then 0
  else if scale = 0 then round n 1
  else
    let cut := 19 * ((digitEstimate n - 25) / 19)
    let n' := n / 10 ^ cut
    let scale' := scale - cut
    if scale' ≤ 0 then mul (round n' 1) (tenTo scale'.natAbs)
    else ofFraction n' scale'.toNat

end Binary64

/-- The bits of the double for a decimal, unless its magnitude is too large. -/
def Decimal.toBinary64? (d : Decimal) : Option UInt64 :=
  let magnitude := Binary64.ofScaled d.digits.natAbs d.scale
  if Binary64.infinity ≤ magnitude then none
  else some (UInt64.ofNat (if d.digits < 0 then 2 ^ (63 : Nat) + magnitude else magnitude))

end TinyScript
