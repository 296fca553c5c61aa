import TinyScript.Token.Lexeme

/-
  A cursor over source characters, and the lexer that moves it.

  The cursor splits a text into the characters already passed, the pending ones
  of the token being matched, and the rest.  `lexToken` matches one token and
  never skips blanks; when it fails, the characters it consumed stay pending and
  become the front of the next token.  `lex` skips blanks between tokens and
  stops at the first error.
-/

namespace TinyScript

/-- A place in a source text. -/
structure Cursor where
  /-- The characters not yet passed. -/
  rest : List Char
  /-- The number of characters passed. -/
  position : Nat := 0
  /-- The passed characters of the current token, the last one first. -/
  pending : List Char := []

namespace Cursor

/-- The cursor at the start of a text. -/
def ofString (source : String) : Cursor := { rest := source.toList }

/-- Whether a character stands `n` places ahead. -/
def has (c : Cursor) (n : Nat) : Bool := n < c.rest.length

/-- The character `n` places ahead. -/
def get? (c : Cursor) (n : Nat) : Option Char := c.rest[n]?

/-- Moves past one character and adds it to the current token. -/
def advance (c : Cursor) : Cursor :=
  match c.rest with
  | [] => { c with position := c.position + 1 }
  | x :: rest => { rest, position := c.position + 1, pending := x :: c.pending }

/-- Moves past `n` characters of the rest and adds them to the current token. -/
def advanceBy (c : Cursor) (n : Nat) : Cursor where
  rest := c.rest.drop n
  position := c.position + n
  pending := (c.rest.take n).reverse ++ c.pending

/-- Forgets the pending characters. -/
def skip (c : Cursor) : Cursor := { c with pending := [] }

/-- Turns the pending characters into a token. -/
def emit (c : Cursor) (kind : TokenKind) : Token × Cursor :=
  ({ kind, text := String.ofList c.pending.reverse, offset := c.position - c.pending.length },
    c.skip)

@[simp] theorem rest_advanceBy (c : Cursor) (n : Nat) : (c.advanceBy n).rest = c.rest.drop n := rfl

@[simp] theorem rest_skip (c : Cursor) : c.skip.rest = c.rest := rfl

@[simp] theorem rest_emit (c : Cursor) (kind : TokenKind) : (c.emit kind).2.rest = c.rest := rfl

/-- Matches the token at the cursor.  A failed match leaves what it consumed
    pending, and its offset is the new position. -/
def lexToken (c : Cursor) : Except LexError Token × Cursor :=
  let lexeme := Lexeme.scan c.rest
  let c' := c.advanceBy lexeme.length
  match lexeme.verdict with
  | .ok kind => let (token, c'') := c'.emit kind; (.ok token, c'')
  | .error fault => (.error ⟨fault, c'.position⟩, c')

theorem rest_lexToken (c : Cursor) :
    c.lexToken.2.rest = c.rest.drop (Lexeme.scan c.rest).length := by
  unfold lexToken
  dsimp only
  split <;> rfl

/-- Matching a token before the end of the text consumes something. -/
theorem length_rest_lexToken_lt {c : Cursor} {x : Char} {xs : List Char} (h : c.rest = x :: xs) :
    c.lexToken.2.rest.length < c.rest.length := by
  have := Lexeme.length_scan_pos x xs
  rw [rest_lexToken, List.length_drop, h, List.length_cons]
  omega

/-- All tokens from the cursor on, or the first error. -/
def lex (c : Cursor) : Except LexError (List Token) :=
  match _h : c.rest with
  | [] => .ok []
  | x :: _ =>
    if CharClass.isBlank x then c.advance.skip.lex
    else
      match _hm : c.lexToken with
      | (.error e, _) => .error e
      | (.ok token, c') => (c'.lex).map (token :: ·)
termination_by c.rest.length
decreasing_by
  · simp [advance, _h]
  · have := length_rest_lexToken_lt _h
    rw [_hm] at this
    exact this

end Cursor

/-- The tokens of a source text, or the first error. -/
def lex (source : String) : Except LexError (List Token) := (Cursor.ofString source).lex

end TinyScript
