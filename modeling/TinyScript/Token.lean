/-
  Tokens: the smallest meaningful pieces of a source text.

  A token keeps its exact source text and the offset of its first character;
  offsets and lengths count characters.  Keywords such as `LET` or `AND` are
  identifiers: only their text tells them apart.
-/

namespace TinyScript

/-- The kind of a token. -/
inductive TokenKind where
  /-- Names and keywords, such as `x` or `RETURN`. -/
  | identifier
  /-- Integer literals, such as `42` or `-7`. -/
  | integer
  /-- Decimal literals, such as `3.14`. -/
  | decimal
  /-- Character literals, quotes included. -/
  | character
  /-- String literals, quotes included. -/
  | string
  /-- Operators and every other single character. -/
  | operator
deriving DecidableEq, Inhabited

/-- A piece of source text with its kind and place. -/
structure Token where
  /-- What the piece is. -/
  kind : TokenKind
  /-- The exact source text. -/
  text : String
  /-- The offset of the first character. -/
  offset : Nat
deriving DecidableEq, Inhabited

namespace Token

/-- The offset just past the last character. -/
def stop (t : Token) : Nat := t.offset + t.text.length

/-- Whether the token spells a literal value. -/
def isLiteral (t : Token) : Bool :=
  match t.kind with
  | .integer | .decimal | .character | .string => true
  | .identifier | .operator => false

/-- A test on one token: its kind, or its exact text whatever the kind. -/
inductive Pattern where
  /-- Any token of this kind. -/
  | kind (kind : TokenKind)
  /-- Any token with exactly this text. -/
  | text (text : String)
deriving DecidableEq

/-- Whether a token passes the test. -/
def Pattern.accepts (p : Pattern) (t : Token) : Bool :=
  match p with
  | .kind k => t.kind == k
  | .text s => t.text == s

end Token

end TinyScript
