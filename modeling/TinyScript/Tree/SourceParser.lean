import TinyScript.Tree.StmtParser

/-
  Parsing of whole programs.

    source    ::= field* method*
    field     ::= "LET" identifier ":" identifier ("=" expression)? ";"
    method    ::= "DEF" identifier "(" (parameter ("," parameter)*)? ")" (":" identifier)?
                  "DO" statement* "END"
    parameter ::= identifier (":" identifier)?
-/

namespace TinyScript

namespace Parse

/-- A global variable after its keyword. -/
def field : Parse Field := do
  let offset := (← stream).previousOffset
  let name ← expectName "a field name"
  expectText ":" "':' after the field name"
  let typeName ← expectName "a field type"
  let value ← optionalAfter "=" (expression nestingLimit)
  expectText ";" "';' after the field"
  return { node := ⟨← freshId, offset⟩, name, typeName, value }

/-- A parameter. -/
def parameter : Parse Parameter := do
  let name ← expectName "a parameter name"
  let typeName ← optionalAfter ":" (expectName "a parameter type")
  return { name, typeName }

/-- A method after its keyword. -/
def method : Parse Method := do
  let offset := (← stream).previousOffset
  let name ← expectName "a method name"
  expectText "(" "'(' after the method name"
  let parameters ← commaSeparated parameter ")"
  let resultName ← optionalAfter ":" (expectName "a return type")
  expectText "DO" "'DO' before the method body"
  let body ← block (statement nestingLimit) ["END"]
  expectText "END" "'END' after the method body"
  return { node := ⟨← freshId, offset⟩, name, parameters, resultName, body }

/-- What follows each token with the given text, as long as one comes next. -/
def manyAfter {α : Type} (text : String) (p : Parse α) : (bound : List Token) → Parse (List α)
  | [] => return []
  | _ :: bound => do
    match ← optionalAfter text p with
    | none => return []
    | some a => return a :: (← manyAfter text p bound)

/-- A whole program, up to the end of the tokens. -/
def source : Parse Source := do
  let fields ← manyAfter "LET" field (← stream).rest
  let methods ← manyAfter "DEF" method (← stream).rest
  match (← stream).next? with
  | some t => throw (.trailingTokens t.text t.offset)
  | none => return { fields, methods }

end Parse

/-- Runs a parser from the start of a list of tokens. -/
def Parse.onTokens {α : Type} (p : Parse α) (tokens : List Token) : Except ParseError α :=
  match p.run (.ofTokens tokens) with
  | .ok a _ => .ok a
  | .error e _ => .error e

/-- The program that a list of tokens forms. -/
def parse (tokens : List Token) : Except ParseError Source := Parse.source.onTokens tokens

end TinyScript
