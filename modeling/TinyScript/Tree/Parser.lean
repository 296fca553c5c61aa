import Std.Data.ExtTreeMap
import TinyScript.Token.Stream
import TinyScript.Tree

/-
  Parsing: the state, the errors and the primitives.

  A parser reads from a token stream, hands out node identities, and keeps what
  it has consumed also when it fails.  It never goes back: every rule decides by
  the next token.

  Nesting is limited twice by `nestingLimit`: statements and expressions open at
  one time, which the state counts (`depth`), and the height of an expression
  tree, which the state records under the identity of the node (`heights`).

  A rule that repeats consumes a token each time, so the tokens ahead when it
  starts bound its rounds; it recurs on that list (`bound`) and never reaches
  the end of it.  A rule that nests recurs on a number of levels (`room`) in the
  same way: `nestingLimit` of them are not used up before `nested` fails.
-/

namespace TinyScript

/-! ## Errors -/

/-- Why tokens do not form a tree. -/
inductive ParseError where
  /-- Another token than the expected one. -/
  | unexpectedToken (expected found : String) (offset : Nat)
  /-- The tokens ended where one was expected. -/
  | unexpectedEnd (expected : String) (offset : Nat)
  /-- Tokens after the end of the program. -/
  | trailingTokens (token : String) (offset : Nat)
  /-- Blocks or expressions too deep in one another. -/
  | nestingTooDeep (limit offset : Nat)
deriving DecidableEq, Inhabited

namespace ParseError

/-- The offset of the offending or missing token. -/
def offset : ParseError → Nat
  | unexpectedToken _ _ n | unexpectedEnd _ n | trailingTokens _ n | nestingTooDeep _ n => n

/-- The explanation of an error. -/
def explanation : ParseError → String
  | unexpectedToken expected found _ => s!"Expected {expected}, found '{found}'."
  | unexpectedEnd expected _ => s!"Expected {expected}, but the input ended."
  | trailingTokens token _ => s!"Extra tokens after the last method, starting with '{token}'."
  | nestingTooDeep limit _ => s!"Nesting exceeds the limit of {limit} levels."

/-- The text shown for an error. -/
def message (e : ParseError) : String := s!"Error at offset {e.offset}: " ++ e.explanation

end ParseError

/-! ## The parser -/

/-- The deepest nesting of statements and expressions, and the greatest height of
    an expression. -/
def nestingLimit : Nat := 128

/-- What a parser reads from and hands out. -/
structure ParserState where
  /-- The tokens ahead. -/
  stream : TokenStream
  /-- The identity of the next node. -/
  nextId : Nat := 0
  /-- The number of statements and expressions that are open. -/
  depth : Nat := 0
  /-- The heights of the expressions created, under their identities. -/
  heights : Std.ExtTreeMap Nat Nat := ∅

namespace ParserState

/-- The state at the start of a list of tokens. -/
def ofTokens (tokens : List Token) : ParserState := { stream := .ofList tokens }

/-- The recorded height of an expression. -/
def height (s : ParserState) (e : Expr) : Nat := s.heights[e.id]?.getD 1

/-- The greatest recorded height among some expressions, zero if there are none. -/
def maxHeight (s : ParserState) (es : List Expr) : Nat := es.foldr (fun e h => max (s.height e) h) 0

/-- The height of a new node, from the recorded heights of its children. -/
def nodeHeight (s : ParserState) (e : Expr) : Nat := s.maxHeight e.children + 1

/-- The state with the next identity handed out to a node of the given height. -/
def record (s : ParserState) (height : Nat) : ParserState :=
  { s with nextId := s.nextId + 1, heights := s.heights.insert s.nextId height }

/-- The state with one more level open. -/
def deeper (s : ParserState) : ParserState := { s with depth := s.depth + 1 }

/-- The state with one level closed. -/
def shallower (s : ParserState) : ParserState := { s with depth := s.depth - 1 }

end ParserState

/-- A parser: it moves through the tokens and yields a result or an error. -/
abbrev Parse := EStateM ParseError ParserState

namespace Parse

/-- The tokens ahead. -/
def stream : Parse TokenStream := return (← get).stream

/-- Whether the next token passes the pattern. -/
def peek (p : Token.Pattern) : Parse Bool := return (← stream).peek p

/-- Moves past the next token. -/
def advance : Parse Unit := modify fun s => { s with stream := s.stream.advance }

/-- Moves past the next token if it passes the pattern. -/
def accept (p : Token.Pattern) : Parse Bool := do
  if ← peek p then
    advance
    return true
  else return false

/-- Moves past the next token if it has this text. -/
def acceptText (text : String) : Parse Bool := accept (.text text)

/-- The error for something missing at the next token. -/
def missing (s : TokenStream) (expected : String) : ParseError :=
  match s.next? with
  | some t => .unexpectedToken expected t.text t.offset
  | none => .unexpectedEnd expected s.endOffset

/-- Moves past the next token, which must pass the pattern. -/
def expect (p : Token.Pattern) (expected : String) : Parse Token := do
  let s ← stream
  match s.next? with
  | some t =>
    if p.accepts t then
      advance
      return t
    else throw (missing s expected)
  | none => throw (missing s expected)

/-- Moves past the next token, which must have this text. -/
def expectText (text expected : String) : Parse Unit := discard (expect (.text text) expected)

/-- Moves past the next token, which must be an identifier, and gives its text. -/
def expectName (expected : String) : Parse String :=
  return (← expect (.kind .identifier) expected).text

/-- A new node identity. -/
def freshId : Parse Nat := modifyGet fun s => (s.nextId, { s with nextId := s.nextId + 1 })

/-- Fails because nothing may nest any deeper here. -/
def tooDeep {α : Type} : Parse α := do
  throw (.nestingTooDeep nestingLimit (← stream).currentOffset)

/-- Runs the parser one level of nesting deeper, and closes the level however it ends. -/
def nested {α : Type} (p : Parse α) : Parse α := fun s =>
  if s.depth = nestingLimit then tooDeep s
  else
    match p s.deeper with
    | .ok a s' => .ok a s'.shallower
    | .error e s' => .error e s'.shallower

/-- Runs the parser on what follows a token with this text, if it comes next. -/
def optionalAfter {α : Type} (text : String) (p : Parse α) : Parse (Option α) := do
  if ← acceptText text then return some (← p) else return none

/-! ## Lists -/

/-- The rest of a list after an item: items led by commas, up to the closing
    token. -/
def listTail {α : Type} (item : Parse α) (closing : String) : (bound : List Token) → Parse (List α)
  | [] => do throw (missing (← stream) s!"',' or '{closing}'")
  | _ :: bound => do
    if ← acceptText closing then return []
    else
      expectText "," s!"',' or '{closing}'"
      let a ← item
      let as ← listTail item closing bound
      return a :: as

/-- Items separated by commas, up to and including the closing token. -/
def commaSeparated {α : Type} (item : Parse α) (closing : String) : Parse (List α) := do
  if ← acceptText closing then return []
  else
    let a ← item
    let as ← listTail item closing (← stream).rest
    return a :: as

end Parse

end TinyScript
