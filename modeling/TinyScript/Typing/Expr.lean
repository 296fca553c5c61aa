import TinyScript.Decimal.Binary64
import TinyScript.Tree
import TinyScript.Typing.Check

/-
  Analysis of expressions.

  Every expression gets one type, recorded together with the meaning of the names
  in it.

  * Integer literals fit 32 bits, decimal literals a double.
  * Parentheses contain a binary operation.
  * `AND` and `OR` take truth values, comparisons two operands of one comparable
    type, `+` anything as soon as one side is a string, and arithmetic otherwise
    two integers or two decimals.
  * Arguments fit the parameter types.
-/

namespace TinyScript

namespace Check

/-- The type of a literal. -/
def literal (offset : Nat) : Literal → Check Ty
  | .nil => return .nil
  | .boolean _ => return .boolean
  | .integer n => if Value.fitsInt32 n then return .integer else throw (.integerOutOfRange offset)
  | .decimal d =>
    if d.toBinary64?.isSome then return .decimal else throw (.decimalOutOfRange offset)
  | .character _ => return .character
  | .string _ => return .string

/-- Requires an expression of this type to be a truth value. -/
def requireBoolean (type : Ty) (offset : Nat) : Check Unit :=
  if type = .boolean then return () else throw (.expectedBoolean type.name offset)

/-- The type of an operator other than `AND` and `OR`, if it applies to operands
    of these types. -/
def operatorType? (operator : BinaryOperator) (left right : Ty) : Option Ty :=
  if operator.isComparison then
    if left.isComparable && left.same right then some .boolean else none
  else if operator = .add ∧ (left = .string ∨ right = .string) then some .string
  else
    match left, right with
    | .integer, .integer => some .integer
    | .decimal, .decimal => some .decimal
    | _, _ => none

/-- The description of an object type, for an expression that must have one. -/
def requireObject (r : Registry) (type : Ty) (offset : Nat) : Check ObjectType :=
  match type with
  | .object ref => return r.describe ref
  | _ => throw (.notAnObject type.name offset)

/-- The result type of a call, recorded with what it stands for. -/
def called (id : Nat) (signature : Signature) (binding : Binding) : Check Ty := do
  record (·.recordBinding id binding)
  return signature.result

mutual

/-- The type of an expression. -/
def expr (r : Registry) : Expr → Check Ty
  | .literal node value => do
    let type ← literal node.offset value
    record (·.recordType node.id type)
    return type
  | .group node inner => do
    if inner.isBinary then
      let type ← expr r inner
      record (·.recordType node.id type)
      return type
    else throw (.groupNotBinary node.offset)
  | .binary node operator left right => do
    let leftType ← expr r left
    if operator = .and ∨ operator = .or then
      requireBoolean leftType left.offset
      let rightType ← expr r right
      requireBoolean rightType right.offset
      record (·.recordType node.id .boolean)
      return .boolean
    else
      let rightType ← expr r right
      match operatorType? operator leftType rightType with
      | some type =>
        record (·.recordType node.id type)
        return type
      | none => throw (.invalidOperands operator leftType.name rightType.name node.offset)
  | .var node name => do
    match (← get).scope.lookup? name with
    | some type =>
      record (·.recordBinding node.id (.var name type))
      record (·.recordType node.id type)
      return type
    | none => throw (.unknownVariable name node.offset)
  | .field node receiver name => do
    let owner ← expr r receiver
    let objectType ← requireObject r owner receiver.offset
    match objectType.fieldType? name with
    | some type =>
      record (·.recordBinding node.id (.field owner name type))
      record (·.recordType node.id type)
      return type
    | none => throw (.unknownField owner.name name node.offset)
  | .call node name arguments => do
    match (← get).scope.function? name arguments.length with
    | some signature =>
      exprs r arguments signature.parameters
      let type ← called node.id signature (.function signature)
      record (·.recordType node.id type)
      return type
    | none => throw (.unknownFunction name arguments.length node.offset)
  | .methodCall node receiver name arguments => do
    let owner ← expr r receiver
    let objectType ← requireObject r owner receiver.offset
    match objectType.method? name arguments.length with
    | some method =>
      exprs r arguments method.signature.parameters
      let type ← called node.id method.signature (.method owner method.signature)
      record (·.recordType node.id type)
      return type
    | none => throw (.unknownMethod owner.name name arguments.length node.offset)
termination_by structural e => e

/-- Requires arguments to fit parameter types, one by one. -/
def exprs (r : Registry) : List Expr → List Ty → Check Unit
  | e :: es, t :: ts => do
    let type ← expr r e
    requireAssignable t type
    exprs r es ts
  | _, _ => return ()
termination_by structural es => es

end

end Check

end TinyScript
