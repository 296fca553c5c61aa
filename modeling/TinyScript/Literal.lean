import TinyScript.Token
import TinyScript.Numeral

/-
  Literal values, their source text and their reading.

  * `Literal.source`: the text that lexes and reads back as the value;
  * `Literal.ofToken?`: the value a token spells;
  * `Literal.unescape`: the content of a quoted literal.
-/

namespace TinyScript

/-- A value that can be written down directly. -/
inductive Literal where
  /-- The value `NIL`. -/
  | nil
  /-- The values `TRUE` and `FALSE`. -/
  | boolean (value : Bool)
  /-- An integer of any size. -/
  | integer (value : Int)
  /-- A decimal of any size. -/
  | decimal (value : Decimal)
  /-- A single character. -/
  | character (value : Char)
  /-- A string. -/
  | string (value : String)
deriving DecidableEq, Inhabited

namespace Literal

/-! ## Escapes -/

/-- How a character is written inside the given quotes. -/
def escapeChar (quote c : Char) : List Char :=
  match c with
  | '\\' => ['\\', '\\']
  | '\n' => ['\\', 'n']
  | '\r' => ['\\', 'r']
  | '\t' => ['\\', 't']
  | '\x08' => ['\\', 'b']
  | c => if c == quote then ['\\', c] else [c]

/-- How a text is written inside the given quotes, without the quotes. -/
def escape (quote : Char) (cs : List Char) : List Char := cs.flatMap (escapeChar quote)

/-- The character an escape stands for: itself unless it names a control
    character. -/
def escapedChar : Char → Char
  | 'b' => '\x08'
  | 'n' => '\n'
  | 'r' => '\r'
  | 't' => '\t'
  | c => c

/-- Decodes the escapes of a text from left to right.  A backslash with nothing
    after it stands for itself. -/
def unescapeChars : List Char → List Char
  | [] => []
  | ['\\'] => ['\\']
  | '\\' :: c :: cs => escapedChar c :: unescapeChars cs
  | c :: cs => c :: unescapeChars cs

/-- The content of a quoted literal: the first and the last character are taken
    for the quotes. -/
def content (text : String) : List Char := unescapeChars (text.toList.drop 1).dropLast

/-- The content of a quoted literal as a string. -/
def unescape (text : String) : String := String.ofList (content text)

/-! ## Source text -/

/-- The text of a value as it is written in a program. -/
def source : Literal → String
  | nil => "NIL"
  | boolean true => "TRUE"
  | boolean false => "FALSE"
  | integer n => toString n
  | decimal d => d.text
  | character c => String.ofList ('\'' :: escapeChar '\'' c ++ ['\''])
  | string s => String.ofList ('"' :: escape '"' s.toList ++ ['"'])

/-! ## Reading -/

/-- The characters of a number without one leading plus sign. -/
def unsigned (text : String) : List Char :=
  match text.toList with
  | '+' :: cs => cs
  | cs => cs

/-- The value a literal token spells. -/
def ofToken? (t : Token) : Option Literal :=
  match t.kind with
  | .integer => (Numeral.integer? (unsigned t.text)).map integer
  | .decimal => (Numeral.decimal? (unsigned t.text)).map decimal
  | .character =>
    match content t.text with
    | [c] => some (character c)
    | _ => none
  | .string => some (string (unescape t.text))
  | .identifier | .operator => none

end Literal

end TinyScript
