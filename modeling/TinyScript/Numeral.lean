import TinyScript.Decimal.Basic

/-
  Numerals: how the text of a number is read.

  An integer is an optional sign and digits, with underscores allowed anywhere
  but in front of the first digit.  A decimal is an integer with at most one
  point among its digits and an optional decimal exponent.
-/

namespace TinyScript

attribute [local instance (high)] instPowNat

namespace Numeral

/-- The value of a digit. -/
def digitValue (c : Char) : Nat := c.toNat - '0'.toNat

/-- The number whose digits continue those of `acc`; underscores count for
    nothing, and any other character makes the text invalid. -/
def readDigits (acc : Nat) : List Char → Option Nat
  | [] => some acc
  | c :: cs =>
    if c == '_' then readDigits acc cs
    else if c.isDigit then readDigits (10 * acc + digitValue c) cs
    else none

/-- An unsigned number. -/
def natural? : List Char → Option Nat
  | [] => none
  | c :: cs => if c == '_' then none else readDigits 0 (c :: cs)

/-- A number with an optional sign. -/
def integer? : List Char → Option Int
  | '-' :: cs => (natural? cs).map fun n => -(n : Int)
  | '+' :: cs => (natural? cs).map Int.ofNat
  | cs => (natural? cs).map Int.ofNat

/-- Whether a character separates the digits from the exponent. -/
def isExponentMark (c : Char) : Bool := c == 'e' || c == 'E'

/-- The exponent after its mark: a sign and digits only. -/
def exponent? (cs : List Char) : Option Int :=
  if cs.contains '_' then none else integer? cs

/-- The scales a decimal can have. -/
def isScale (n : Int) : Bool := decide (-2 ^ (63 : Nat) ≤ n) && decide (n < 2 ^ (63 : Nat))

/-- A decimal: the digits around the first point, and as scale the number of
    digits after it less the exponent. -/
def decimal? (cs : List Char) : Option Decimal := do
  let mantissa := cs.takeWhile fun c => !isExponentMark c
  let exponent ←
    match cs.dropWhile fun c => !isExponentMark c with
    | [] => some 0
    | _ :: cs => exponent? cs
  let whole := mantissa.takeWhile (· != '.')
  let fraction := (mantissa.dropWhile (· != '.')).drop 1
  let scale := ((fraction.filter (· != '_')).length : Int) - exponent
  let digits ← integer? (whole ++ fraction)
  if isScale scale then some ⟨digits, scale⟩ else none

end Numeral

end TinyScript
