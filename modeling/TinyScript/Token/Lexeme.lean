import TinyScript.Token

/-
  Lexemes: how far the token at the front of a text reaches.

  `Lexeme.scan` looks at the characters from the current position on and says
  how many of them it consumed and whether they form a token.  A failed scan
  has consumed the characters before the offending one, so its length is also
  the distance to the fault.

    identifier ::= [A-Za-z_] [A-Za-z0-9_-]*
    number     ::= [+-]? [0-9]+ ('.' [0-9]+)?
    character  ::= ['] ([^'\n\r\\] | escape) [']
    string     ::= ["] ([^"\n\r\\] | escape)* ["]
    escape     ::= '\' [bnrt'"\]
    operator   ::= [<>!=] '='? | any character

  * `Lexeme.length_scan_le`: a scan never consumes more than there is;
  * `Lexeme.length_scan_pos`: on a nonempty text it consumes something.
-/

namespace TinyScript

/-! ## Character classes -/

namespace CharClass

/-- The characters skipped between tokens. -/
def isBlank (c : Char) : Bool :=
  c == ' ' || c == '\x08' || c == '\n' || c == '\r' || c == '\t'

/-- The characters that start an identifier. -/
def isIdentifierStart (c : Char) : Bool := c.isAlpha || c == '_'

/-- The characters that continue an identifier. -/
def isIdentifierPart (c : Char) : Bool := c.isAlphanum || c == '_' || c == '-'

/-- The signs a number may start with. -/
def isSign (c : Char) : Bool := c == '+' || c == '-'

/-- The characters allowed after a backslash. -/
def isEscapeCode (c : Char) : Bool :=
  c == 'b' || c == 'n' || c == 'r' || c == 't' || c == '\'' || c == '"' || c == '\\'

/-- The characters that end a line, which no literal may contain. -/
def isLineEnd (c : Char) : Bool := c == '\n' || c == '\r'

/-- The operators that an equals sign extends. -/
def isComparisonStart (c : Char) : Bool := c == '<' || c == '>' || c == '!' || c == '='

end CharClass

/-! ## Errors -/

/-- What is wrong at the place where a scan stopped. -/
inductive LexFault where
  /-- A decimal point without a digit after it. -/
  | invalidDecimal
  /-- A character literal without content. -/
  | emptyCharacter
  /-- A character literal with a forbidden or a second character. -/
  | invalidCharacter
  /-- The text ended inside a character literal. -/
  | unterminatedCharacter
  /-- A line or the text ended inside a string literal. -/
  | unterminatedString
  /-- A backslash with an unknown character, or nothing, after it. -/
  | invalidEscape
deriving DecidableEq

/-- A fault and the offset of the first invalid or missing character. -/
structure LexError where
  /-- What is wrong. -/
  fault : LexFault
  /-- Where it is wrong. -/
  offset : Nat
deriving DecidableEq

/-- The explanation of a fault. -/
def LexFault.explanation : LexFault → String
  | .invalidDecimal => "Expected a digit after the decimal point."
  | .emptyCharacter => "Character literal is empty."
  | .invalidCharacter => "Invalid character in character literal."
  | .unterminatedCharacter => "Expected closing quote of character literal."
  | .unterminatedString => "Unterminated string literal."
  | .invalidEscape => "Invalid escape sequence, expected one of b n r t ' \" \\."

/-- The text shown for an error. -/
def LexError.message (e : LexError) : String :=
  s!"Error at offset {e.offset}: " ++ e.fault.explanation

/-! ## Scanning -/

/-- The result of scanning one token: the number of characters consumed, and
    the kind of the token or the fault at the character after them. -/
structure Lexeme where
  /-- The number of characters consumed. -/
  length : Nat
  /-- The kind of token they form, or why they form none. -/
  verdict : Except LexFault TokenKind

namespace Lexeme

open CharClass

/-- The same verdict with `n` further characters consumed in front. -/
def after (n : Nat) (l : Lexeme) : Lexeme := { l with length := n + l.length }

@[simp] theorem length_after (n : Nat) (l : Lexeme) : (l.after n).length = n + l.length := rfl

@[simp] theorem verdict_after (n : Nat) (l : Lexeme) : (l.after n).verdict = l.verdict := rfl

/-- The length of the longest run of characters of a class in front. -/
def run (p : Char → Bool) (cs : List Char) : Nat := (cs.takeWhile p).length

theorem run_le (p : Char → Bool) (cs : List Char) : run p cs ≤ cs.length :=
  (List.takeWhile_prefix p).length_le

/-- An unsigned number: digits, and after a point at least one more digit. -/
def number (cs : List Char) : Lexeme :=
  let whole := run Char.isDigit cs
  match cs.drop whole with
  | '.' :: rest =>
    let fraction := run Char.isDigit rest
    if fraction = 0 then ⟨whole + 1, .error .invalidDecimal⟩
    else ⟨whole + 1 + fraction, .ok .decimal⟩
  | _ => ⟨whole, .ok .integer⟩

/-- The closing quote of a character literal. -/
def characterEnd : List Char → Lexeme
  | [] => ⟨0, .error .unterminatedCharacter⟩
  | c :: _ => if c == '\'' then ⟨1, .ok .character⟩ else ⟨0, .error .invalidCharacter⟩

/-- A character literal after its opening quote. -/
def characterBody : List Char → Lexeme
  | [] => ⟨0, .error .unterminatedCharacter⟩
  | '\'' :: _ => ⟨0, .error .emptyCharacter⟩
  | ['\\'] => ⟨1, .error .invalidEscape⟩
  | '\\' :: e :: rest =>
    if isEscapeCode e then (characterEnd rest).after 2 else ⟨1, .error .invalidEscape⟩
  | c :: rest =>
    if isLineEnd c then ⟨0, .error .invalidCharacter⟩ else (characterEnd rest).after 1

/-- A string literal after its opening quote. -/
def stringBody : List Char → Lexeme
  | [] => ⟨0, .error .unterminatedString⟩
  | '"' :: _ => ⟨1, .ok .string⟩
  | ['\\'] => ⟨1, .error .invalidEscape⟩
  | '\\' :: e :: rest =>
    if isEscapeCode e then (stringBody rest).after 2 else ⟨1, .error .invalidEscape⟩
  | c :: rest =>
    if isLineEnd c then ⟨0, .error .unterminatedString⟩ else (stringBody rest).after 1

/-- An operator: a comparison sign takes a following equals sign with it, and
    any other character stands alone.  At the end of the text it is empty. -/
def operator : List Char → Lexeme
  | [] => ⟨0, .ok .operator⟩
  | [_] => ⟨1, .ok .operator⟩
  | c :: d :: _ => if isComparisonStart c && d == '=' then ⟨2, .ok .operator⟩ else ⟨1, .ok .operator⟩

/-- Whether the text starts with a digit. -/
def startsWithDigit : List Char → Bool
  | [] => false
  | c :: _ => c.isDigit

/-- The token at the front of a text. -/
def scan : List Char → Lexeme
  | [] => operator []
  | c :: rest =>
    if isIdentifierStart c then ⟨1 + run isIdentifierPart rest, .ok .identifier⟩
    else if isSign c && startsWithDigit rest then (number rest).after 1
    else if c.isDigit then number (c :: rest)
    else if c == '\'' then (characterBody rest).after 1
    else if c == '"' then (stringBody rest).after 1
    else operator (c :: rest)

/-! ## Extent of a scan -/

theorem length_number_le (cs : List Char) : (number cs).length ≤ cs.length := by
  have hw := run_le Char.isDigit cs
  simp only [number]
  split
  · next rest hrest =>
    have hf := run_le Char.isDigit rest
    have hl := congrArg List.length hrest
    simp only [List.length_drop, List.length_cons] at hl
    split <;> simp only <;> omega
  · exact hw

theorem length_number_pos {c : Char} {cs : List Char} (h : c.isDigit = true) :
    0 < (number (c :: cs)).length := by
  have hw : 0 < run Char.isDigit (c :: cs) := by simp [run, h]
  simp only [number]
  split
  · split <;> simp only <;> omega
  · exact hw

theorem length_characterEnd_le : (cs : List Char) → (characterEnd cs).length ≤ cs.length
  | [] => Nat.le_refl 0
  | c :: cs => by
    rw [characterEnd]
    split <;> simp

theorem length_characterBody_le (cs : List Char) : (characterBody cs).length ≤ cs.length := by
  unfold characterBody
  split
  · simp
  · simp
  · simp
  · next rest =>
    have := length_characterEnd_le rest
    split
    · simp only [length_after, List.length_cons]; omega
    · simp
  · next rest _ _ _ =>
    have := length_characterEnd_le rest
    split
    · simp
    · simp only [length_after, List.length_cons]; omega

theorem length_stringBody_le (cs : List Char) : (stringBody cs).length ≤ cs.length := by
  fun_induction stringBody cs with
  | case1 => simp
  | case2 => simp
  | case3 => simp
  | case4 e rest _ ih => simp; omega
  | case5 e rest _ => simp
  | case6 c rest _ _ _ _ => simp
  | case7 c rest _ _ _ _ ih => simp; omega

theorem length_operator_le (cs : List Char) : (operator cs).length ≤ cs.length := by
  unfold operator
  split
  · simp
  · simp
  · split <;> simp

/-- A scan never consumes more characters than there are. -/
theorem length_scan_le : (cs : List Char) → (scan cs).length ≤ cs.length
  | [] => Nat.le_refl 0
  | c :: rest => by
    have h1 := run_le isIdentifierPart rest
    have h2 := length_number_le rest
    have h3 := length_characterBody_le rest
    have h4 := length_stringBody_le rest
    rw [scan]
    split
    · simp only [List.length_cons]; omega
    split
    · simp only [length_after, List.length_cons]; omega
    split
    · exact length_number_le (c :: rest)
    split
    · simp only [length_after, List.length_cons]; omega
    split
    · simp only [length_after, List.length_cons]; omega
    · exact length_operator_le (c :: rest)

theorem length_operator_pos (c : Char) (rest : List Char) : 0 < (operator (c :: rest)).length := by
  cases rest with
  | nil => exact Nat.zero_lt_one
  | cons d rest => rw [operator]; split <;> simp

/-- A scan of a nonempty text consumes at least one character. -/
theorem length_scan_pos (c : Char) (rest : List Char) : 0 < (scan (c :: rest)).length := by
  rw [scan]
  split
  · simp only; omega
  split
  · simp only [length_after]; omega
  split
  · next h => exact length_number_pos h
  split
  · simp only [length_after]; omega
  split
  · simp only [length_after]; omega
  · exact length_operator_pos c rest

end Lexeme

end TinyScript
