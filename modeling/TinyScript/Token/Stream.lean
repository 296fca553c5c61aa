import TinyScript.Token

/-
  A stream of tokens with lookahead.
-/

namespace TinyScript

/-- A place in a list of tokens. -/
structure TokenStream where
  /-- The tokens not yet passed. -/
  rest : List Token
  /-- The token just passed. -/
  previous : Option Token := none
  /-- The number of tokens passed. -/
  position : Nat := 0
  /-- The offset just past the last token of the whole list. -/
  endOffset : Nat

namespace TokenStream

/-- The stream at the start of a list of tokens. -/
def ofList (tokens : List Token) : TokenStream where
  rest := tokens
  endOffset := (tokens.getLast?.map Token.stop).getD 0

/-- Whether a token stands `n` places ahead. -/
def has (s : TokenStream) (n : Nat) : Bool := n < s.rest.length

/-- The token `n` places ahead. -/
def get? (s : TokenStream) (n : Nat) : Option Token := s.rest[n]?

/-- The next token. -/
def next? (s : TokenStream) : Option Token := s.rest.head?

/-- Moves past one token. -/
def advance (s : TokenStream) : TokenStream where
  rest := s.rest.tail
  previous := s.rest.head?
  position := s.position + 1
  endOffset := s.endOffset

/-- Moves past `n` tokens. -/
def advanceBy (s : TokenStream) : Nat → TokenStream
  | 0 => s
  | n + 1 => s.advance.advanceBy n

/-- Whether the next tokens pass the patterns one by one. -/
def peekAll (s : TokenStream) (patterns : List Token.Pattern) : Bool :=
  go patterns s.rest
where
  /-- Matches patterns against a list of tokens. -/
  go : List Token.Pattern → List Token → Bool
    | [], _ => true
    | _ :: _, [] => false
    | p :: ps, t :: ts => p.accepts t && go ps ts

/-- Moves past the next tokens if they pass the patterns one by one. -/
def acceptAll (s : TokenStream) (patterns : List Token.Pattern) : Bool × TokenStream :=
  if s.peekAll patterns then (true, s.advanceBy patterns.length) else (false, s)

/-- Whether the next token passes the pattern. -/
def peek (s : TokenStream) (p : Token.Pattern) : Bool := s.next?.any p.accepts

/-- The offset of the next token, or of the end of the text. -/
def currentOffset (s : TokenStream) : Nat := (s.next?.map Token.offset).getD s.endOffset

/-- The offset of the token just passed. -/
def previousOffset (s : TokenStream) : Nat := (s.previous.map Token.offset).getD 0

end TokenStream

end TinyScript
