import TinyScript.Tree.Parser

/-
  Parsing of expressions.

    expression     ::= logical
    logical        ::= comparison (("AND" | "OR") comparison)*
    comparison     ::= additive (("<" | "<=" | ">" | ">=" | "==" | "!=") additive)*
    additive       ::= multiplicative (("+" | "-") multiplicative)*
    multiplicative ::= secondary (("*" | "/") secondary)*
    secondary      ::= primary ("." identifier ("(" arguments ")")?)*
    primary        ::= "NIL" | "TRUE" | "FALSE" | integer | decimal | character | string
                     | "(" expression ")" | identifier ("(" arguments ")")?

  The rules are written for a given parser of the expressions one level further
  in; `Parse.expression` closes the recursion.
-/

namespace TinyScript

namespace Parse

/-- Builds a node, unless the tree becomes too high. -/
def build (offset : Nat) (make : Node → Expr) : Parse Expr := do
  let s ← get
  let e := make ⟨s.nextId, offset⟩
  let height := s.nodeHeight e
  if nestingLimit < height then throw (.nestingTooDeep nestingLimit offset)
  else
    set (s.record height)
    return e

/-! ## Primary and secondary expressions -/

/-- A literal token. -/
def literal (t : Token) : Parse Expr := do
  advance
  match Literal.ofToken? t with
  | some value => build t.offset (.literal · value)
  | none => throw (.unexpectedToken "a valid literal" t.text t.offset)

/-- The arguments of a call, after the opening parenthesis. -/
def arguments (inner : Parse Expr) : Parse (List Expr) := commaSeparated inner ")"

/-- A variable, or a call of a function. -/
def named (inner : Parse Expr) (offset : Nat) : Parse Expr := do
  let name ← expectName "a name"
  if ← acceptText "(" then
    let args ← arguments inner
    build offset (.call · name args)
  else build offset (.var · name)

/-- A primary expression. -/
def primary (inner : Parse Expr) : Parse Expr := do
  let s ← stream
  let offset := s.currentOffset
  if ← acceptText "NIL" then build offset (.literal · .nil)
  else if ← acceptText "TRUE" then build offset (.literal · (.boolean true))
  else if ← acceptText "FALSE" then build offset (.literal · (.boolean false))
  else
    match s.next?.filter Token.isLiteral with
    | some t => literal t
    | none =>
      if ← acceptText "(" then
        let e ← inner
        expectText ")" "')' after the grouped expression"
        build offset (.group · e)
      else if ← peek (.kind .identifier) then named inner offset
      else throw (missing s "an expression")

/-- The member of `receiver` whose name comes next. -/
def member (inner : Parse Expr) (receiver : Expr) : Parse Expr := do
  let name ← expect (.kind .identifier) "a member name after '.'"
  if ← acceptText "(" then
    let args ← arguments inner
    build name.offset (.methodCall · receiver name.text args)
  else build name.offset (.field · receiver name.text)

/-- The members that follow a receiver. -/
def members (inner : Parse Expr) : (bound : List Token) → Expr → Parse Expr
  | [], receiver => return receiver
  | _ :: bound, receiver => do
    if ← acceptText "." then members inner bound (← member inner receiver)
    else return receiver

/-- A primary expression and the members that follow it. -/
def secondary (inner : Parse Expr) : Parse Expr := do
  let e ← primary inner
  members inner (← stream).rest e

/-! ## Operators -/

/-- The operator that comes next, if it is one of these.  Literals never are. -/
def peekOperator (operators : List BinaryOperator) : Parse (Option BinaryOperator) := do
  match (← stream).next? with
  | some ⟨.identifier, text, _⟩ | some ⟨.operator, text, _⟩ =>
    return operators.find? fun o => o.text == text
  | _ => return none

/-- Joins operands from the left as long as one of the operators comes next. -/
def chain (operators : List BinaryOperator) (operand : Parse Expr) :
    (bound : List Token) → Expr → Parse Expr
  | [], left => return left
  | _ :: bound, left => do
    match ← peekOperator operators with
    | none => return left
    | some operator =>
      advance
      let right ← operand
      let joined ← build left.offset (.binary · operator left right)
      chain operators operand bound joined

/-- Operands joined from the left by any of the operators. -/
def leftAssociative (operators : List BinaryOperator) (operand : Parse Expr) : Parse Expr := do
  let left ← operand
  chain operators operand (← stream).rest left

/-- Products and quotients. -/
def multiplicative (inner : Parse Expr) : Parse Expr :=
  leftAssociative [.mul, .div] (secondary inner)

/-- Sums and differences. -/
def additive (inner : Parse Expr) : Parse Expr :=
  leftAssociative [.add, .sub] (multiplicative inner)

/-- Comparisons. -/
def comparison (inner : Parse Expr) : Parse Expr :=
  leftAssociative [.less, .lessEqual, .greater, .greaterEqual, .equal, .notEqual] (additive inner)

/-- Connectives. -/
def logical (inner : Parse Expr) : Parse Expr :=
  leftAssociative [.and, .or] (comparison inner)

/-- An expression.  At most `room` levels of nesting are opened for it. -/
def expression : (room : Nat) → Parse Expr
  | 0 => tooDeep
  | room + 1 => nested (logical (expression room))

end Parse

end TinyScript
