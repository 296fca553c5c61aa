/-
  Binary operators.
-/

namespace TinyScript

/-- A binary operator. -/
inductive BinaryOperator where
  /-- Logical and. -/
  | and
  /-- Logical or. -/
  | or
  /-- Less than. -/
  | less
  /-- Less than or equal. -/
  | lessEqual
  /-- Greater than. -/
  | greater
  /-- Greater than or equal. -/
  | greaterEqual
  /-- Equal. -/
  | equal
  /-- Not equal. -/
  | notEqual
  /-- Addition or concatenation. -/
  | add
  /-- Subtraction. -/
  | sub
  /-- Multiplication. -/
  | mul
  /-- Division. -/
  | div
deriving DecidableEq, Inhabited

namespace BinaryOperator

/-- How the operator is written. -/
def text : BinaryOperator → String
  | and => "AND"
  | or => "OR"
  | less => "<"
  | lessEqual => "<="
  | greater => ">"
  | greaterEqual => ">="
  | equal => "=="
  | notEqual => "!="
  | add => "+"
  | sub => "-"
  | mul => "*"
  | div => "/"

/-- All operators. -/
def all : List BinaryOperator :=
  [and, or, less, lessEqual, greater, greaterEqual, equal, notEqual, add, sub, mul, div]

/-- The operator written like this. -/
def ofText? (text : String) : Option BinaryOperator := all.find? fun o => o.text == text

/-- Every operator is found by its text. -/
theorem ofText?_text (o : BinaryOperator) : ofText? o.text = some o := by
  cases o <;> decide

/-- Whether the operator orders or equates its operands. -/
def isComparison : BinaryOperator → Bool
  | less | lessEqual | greater | greaterEqual | equal | notEqual => true
  | and | or | add | sub | mul | div => false

end BinaryOperator

end TinyScript
