import TinyScript.Operator

/-
  Errors found by analysis.  Types are given by their names.
-/

namespace TinyScript

/-- Why a program is rejected. -/
inductive TypeError where
  /-- There is no `main` without parameters. -/
  | missingMain
  /-- The result of `main` is not an integer. -/
  | invalidMainResult (found : String)
  /-- There is no type of this name. -/
  | unknownType (name : String)
  /-- No variable of this name is in scope. -/
  | unknownVariable (name : String) (offset : Nat)
  /-- No function of this name takes that many arguments. -/
  | unknownFunction (name : String) (arity offset : Nat)
  /-- The type has no such field. -/
  | unknownField (owner name : String) (offset : Nat)
  /-- The type has no such method with that many arguments. -/
  | unknownMethod (owner name : String) (arity offset : Nat)
  /-- A member of something that is not an object. -/
  | notAnObject (found : String) (offset : Nat)
  /-- A value of one type where another type is required. -/
  | notAssignable (target found : String)
  /-- A field, variable or result declared with a capability. -/
  | capabilityDeclaration (name found : String)
  /-- A declaration with neither type nor value. -/
  | missingDeclarationType (name : String)
  /-- An assignment to something that is not a variable or field. -/
  | invalidAssignmentReceiver (offset : Nat)
  /-- A condition or logical operand that is not a truth value. -/
  | expectedBoolean (found : String) (offset : Nat)
  /-- A loop over something that is not a range. -/
  | expectedIterable (found : String) (offset : Nat)
  /-- A choice whose first block is empty. -/
  | emptyThenBranch (offset : Nat)
  /-- An operator does not apply to operands of these types. -/
  | invalidOperands (operator : BinaryOperator) (left right : String) (offset : Nat)
  /-- An integer literal that does not fit 32 bits. -/
  | integerOutOfRange (offset : Nat)
  /-- A decimal literal beyond the doubles. -/
  | decimalOutOfRange (offset : Nat)
  /-- Parentheses around something that is not a binary operation. -/
  | groupNotBinary (offset : Nat)
  /-- An expression statement that is not a call. -/
  | expressionNotCall (offset : Nat)
  /-- A variable declared twice in one scope. -/
  | variableRedefinition (name : String)
  /-- A method declared twice with one name and arity. -/
  | functionRedefinition (name : String) (arity : Nat)
deriving DecidableEq, Inhabited

namespace TypeError

/-- The offset that the text of an error names. -/
def offset? : TypeError → Option Nat
  | unknownVariable _ n | unknownFunction _ _ n | unknownField _ _ n | unknownMethod _ _ _ n
  | notAnObject _ n | invalidAssignmentReceiver n | expectedBoolean _ n | expectedIterable _ n
  | emptyThenBranch n | invalidOperands _ _ _ n | integerOutOfRange n | decimalOutOfRange n
  | groupNotBinary n | expressionNotCall n => some n
  | missingMain | invalidMainResult _ | unknownType _ | notAssignable _ _
  | capabilityDeclaration _ _ | missingDeclarationType _ | variableRedefinition _
  | functionRedefinition _ _ => none

/-- The explanation of an error. -/
def explanation : TypeError → String
  | missingMain => "No method 'main()' is defined."
  | invalidMainResult found => s!"Method 'main()' must return Integer, but returns {found}."
  | unknownType name => s!"Unknown type '{name}'."
  | unknownVariable name _ => s!"Unknown variable '{name}'."
  | unknownFunction name arity _ => s!"Unknown function '{name}' taking {arity} argument(s)."
  | unknownField owner name _ => s!"Type {owner} has no field '{name}'."
  | unknownMethod owner name arity _ =>
    s!"Type {owner} has no method '{name}' taking {arity} argument(s)."
  | notAnObject found _ => s!"{found} has no fields or methods."
  | notAssignable target found => s!"Expected {target}, found {found}."
  | capabilityDeclaration name found =>
    s!"'{name}' cannot be declared as {found}; only parameters may use it."
  | missingDeclarationType name => s!"Declaration of '{name}' needs a type or an initial value."
  | invalidAssignmentReceiver _ => "Only variables and fields can be assigned."
  | expectedBoolean found _ => s!"Condition must be Boolean, found {found}."
  | expectedIterable found _ => s!"Loop value must be IntegerIterable, found {found}."
  | emptyThenBranch _ => "IF statement needs at least one statement before ELSE or END."
  | invalidOperands operator left right _ =>
    s!"Cannot use '{operator.text}' on {left} and {right}."
  | integerOutOfRange _ => "Integer literal does not fit in 32 bits."
  | decimalOutOfRange _ => "Decimal literal is out of double precision range."
  | groupNotBinary _ => "Parentheses must contain a binary expression."
  | expressionNotCall _ => "Expression statements must be function calls."
  | variableRedefinition name => s!"Variable '{name}' is already defined in this scope."
  | functionRedefinition name arity =>
    s!"Method '{name}' taking {arity} argument(s) is already defined."

/-- The text shown for an error. -/
def message (e : TypeError) : String :=
  match e.offset? with
  | some n => s!"Type error at offset {n}: " ++ e.explanation
  | none => "Type error: " ++ e.explanation

end TypeError

end TinyScript
