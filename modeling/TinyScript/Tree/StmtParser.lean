import TinyScript.Tree.ExprParser

/-
  Parsing of statements.

    statement   ::= declaration | if | for | while | return
                  | expression ("=" expression)? ";"
    declaration ::= "LET" identifier (":" identifier)? ("=" expression)? ";"
    if          ::= "IF" expression "DO" statement* ("ELSE" statement*)? "END"
    for         ::= "FOR" identifier "IN" expression "DO" statement* "END"
    while       ::= "WHILE" expression "DO" statement* "END"
    return      ::= "RETURN" expression ";"

  As with expressions, the rules are written for given parsers of what stands one
  level further in.
-/

namespace TinyScript

namespace Parse

/-- Whether the next token has one of these texts, or there is none. -/
def atEnd (terminators : List String) : Parse Bool := do
  let s ← stream
  return s.next?.isNone || terminators.any fun t => s.peek (.text t)

/-- Statements up to a terminator or the end of the tokens.  The terminator itself
    is left. -/
def statementsUpTo (statement : Parse Stmt) (terminators : List String) :
    (bound : List Token) → Parse (List Stmt)
  | [] => return []
  | _ :: bound => do
    if ← atEnd terminators then return []
    else
      let s ← statement
      let ss ← statementsUpTo statement terminators bound
      return s :: ss

/-- Statements up to a terminator or the end of the tokens. -/
def block (statement : Parse Stmt) (terminators : List String) : Parse (List Stmt) := do
  statementsUpTo statement terminators (← stream).rest

/-- A declaration after its keyword. -/
def declaration (expression : Parse Expr) : Parse Declaration := do
  let offset := (← stream).previousOffset
  let name ← expectName "a variable name"
  let typeName ← optionalAfter ":" (expectName "a variable type")
  let value ← optionalAfter "=" expression
  expectText ";" "';' after the declaration"
  return { node := ⟨← freshId, offset⟩, name, typeName, value }

/-- A choice after its keyword. -/
def branch (expression : Parse Expr) (statement : Parse Stmt) : Parse Stmt := do
  let condition ← expression
  expectText "DO" "'DO' after the condition"
  let thenBody ← block statement ["ELSE", "END"]
  let elseBody ← optionalAfter "ELSE" (block statement ["END"])
  expectText "END" "'END' after the if statement"
  return .branch condition thenBody (elseBody.getD [])

/-- A loop over a range after its keyword. -/
def forEach (expression : Parse Expr) (statement : Parse Stmt) : Parse Stmt := do
  let name ← expectName "a loop variable"
  expectText "IN" "'IN' after the loop variable"
  let value ← expression
  expectText "DO" "'DO' after the iterated value"
  let body ← block statement ["END"]
  expectText "END" "'END' after the loop body"
  return .forEach name value body

/-- A conditional loop after its keyword. -/
def loop (expression : Parse Expr) (statement : Parse Stmt) : Parse Stmt := do
  let condition ← expression
  expectText "DO" "'DO' after the condition"
  let body ← block statement ["END"]
  expectText "END" "'END' after the loop body"
  return .loop condition body

/-- A return after its keyword. -/
def ret (expression : Parse Expr) : Parse Stmt := do
  let offset := (← stream).previousOffset
  let value ← expression
  expectText ";" "';' after the returned value"
  return .ret offset value

/-- An expression, or an assignment to it. -/
def expressionOrAssignment (expression : Parse Expr) : Parse Stmt := do
  let receiver ← expression
  let value ← optionalAfter "=" expression
  expectText ";" "';' after the statement"
  match value with
  | some value => return .assign receiver value
  | none => return .expression receiver

/-- A statement whose parts stand one level further in. -/
def statementOf (expression : Parse Expr) (statement : Parse Stmt) : Parse Stmt := do
  if ← acceptText "LET" then return .declare (← declaration expression)
  else if ← acceptText "IF" then branch expression statement
  else if ← acceptText "FOR" then forEach expression statement
  else if ← acceptText "WHILE" then loop expression statement
  else if ← acceptText "RETURN" then ret expression
  else expressionOrAssignment expression

/-- A statement.  At most `room` levels of nesting are opened for it. -/
def statement : (room : Nat) → Parse Stmt
  | 0 => tooDeep
  | room + 1 => nested (statementOf (expression room) (statement room))

end Parse

end TinyScript
