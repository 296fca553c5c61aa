import TinyScript.Decimal.Division
import TinyScript.World

/-
  Operators on values.

  * `World.arithmetic`: `+`, `-`, `*` and `/`; with a string on either side `+`
    concatenates texts, otherwise both operands are integers or both decimals;
  * `World.comparison`: equality of any two values, and the order of two values
    of one comparable kind.

  The world is only read, for the texts and fields of objects.
-/

namespace TinyScript

/-- The error for an operator that does not apply to its operands. -/
def invalidOperands (operator : BinaryOperator) (left right : Value) : RuntimeError :=
  .invalidOperands operator left.kindName right.kindName

namespace BinaryOperator

/-- Integer arithmetic.  Division goes toward zero. -/
def onIntegers (operator : BinaryOperator) (a b : Int) : Except RuntimeError Value :=
  match operator with
  | add => .ok (.integer (a + b))
  | sub => .ok (.integer (a - b))
  | mul => .ok (.integer (a * b))
  | div => if b = 0 then .error .divisionByZero else .ok (.integer (a.tdiv b))
  | _ => .error (invalidOperands operator (.integer a) (.integer b))

/-- Decimal arithmetic. -/
def onDecimals (operator : BinaryOperator) (a b : Decimal) : Except RuntimeError Value :=
  match operator with
  | add => .ok (.decimal (a.add b))
  | sub => .ok (.decimal (a.sub b))
  | mul => .ok (.decimal (a.mul b))
  | div => if b.digits = 0 then .error .divisionByZero else .ok (.decimal (a.div b))
  | _ => .error (invalidOperands operator (.decimal a) (.decimal b))

/-- Whether the operator holds of operands in this order, if it is an ordering
    operator. -/
def holds? (operator : BinaryOperator) (o : Ordering) : Option Bool :=
  match operator with
  | less => some (o == .lt)
  | lessEqual => some (o != .gt)
  | greater => some (o == .gt)
  | greaterEqual => some (o != .lt)
  | _ => none

end BinaryOperator

namespace World

/-- The value of an arithmetic operator. -/
def arithmetic (w : World) (operator : BinaryOperator) (left right : Value) : Except Stop Value :=
  match operator, left, right with
  | .add, .string s, v => (Stop.answer (w.text? v)).map fun t => .string (s ++ t)
  | .add, v, .string s => (Stop.answer (w.text? v)).map fun t => .string (t ++ s)
  | _, .integer a, .integer b => (operator.onIntegers a b).mapError .error
  | _, .decimal a, .decimal b => (operator.onDecimals a b).mapError .error
  | _, _, _ => .error (.error (invalidOperands operator left right))

/-- The value of a comparison operator. -/
def comparison (w : World) (operator : BinaryOperator) (left right : Value) : Except Stop Value :=
  match operator with
  | .equal => (Stop.answer (w.equal? left right)).map .boolean
  | .notEqual => (Stop.answer (w.equal? left right)).map fun b => .boolean !b
  | _ =>
    match (left.compare? right).bind operator.holds? with
    | some b => .ok (.boolean b)
    | none => .error (.error (invalidOperands operator left right))

/-- The value of an operator other than `AND` and `OR`. -/
def binary (w : World) (operator : BinaryOperator) (left right : Value) : Except Stop Value :=
  if operator.isComparison then w.comparison operator left right
  else w.arithmetic operator left right

end World

end TinyScript
