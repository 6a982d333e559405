import MFile.Lexing.Comment
import MFile.Lexing.Quotation

/-!
Lexemes: what the characters ahead spell, before the surroundings are asked. The longest match
wins, so three dots are a continuation before `.5` is a number and `.` a selection.
-/

namespace MFile.Lexing

/-- `more` counts the characters after the first. -/
inductive Lexeme
  | newline (more : Nat)
  | continuation (more : Nat)
  | comment (more : Nat)
  | word (more : Nat)
  | number (extent : Extent)
  | quote
  | text (extent : Extent)
  | bang (more : Nat)
  | symbol (kind : Kind) (more : Nat)
deriving DecidableEq, Repr

namespace Lexeme

def isPair (c d : Char) : Bool :=
  match c with
  | '=' | '~' | '<' | '>' => d == '='
  | '&' => d == '&'
  | '|' => d == '|'
  | '.' => d == '^' || d == '*' || d == '/' || d == '\\' || d == '\''
  | _ => false

def mark? : Char → Option Kind
  | '+' | '-' | '*' | '/' | '\\' | '^' | '<' | '>' | '&' | '|' | '~' => some .operator
  | '=' => some .assignment
  | '.' => some .selection
  | '@' => some .handle
  | '?' => some .metaclass
  | ',' => some .comma
  | ';' => some .semicolon
  | ':' => some .colon
  | '(' => some .lparen
  | ')' => some .rparen
  | '[' => some .lbracket
  | ']' => some .rbracket
  | '{' => some .lbrace
  | '}' => some .rbrace
  | _ => none

def symbol? (c : Char) (cs : List Char) : Option Lexeme :=
  if Text.startsWithAny (isPair c) cs then some (symbol .operator 1)
  else (mark? c).map (symbol · 0)

def ofChars? (c : Char) (cs : List Char) : Option Lexeme :=
  if c = '\n' then some (newline (blankLines cs))
  else if c = '\r' then
    match cs with
    | '\n' :: rest => some (newline (1 + blankLines rest))
    | _ => none
  else if c = '%' ∨ c = '#' then some (comment (restOfLine cs))
  else if c.isAlpha then some (word (Text.run Text.isNameChar cs))
  else if c.isDigit then some (number (Number.afterDigit c cs))
  else if c = '.' ∧ ['.', '.'].isPrefixOf cs then
    some (continuation (2 + throughBreak (cs.drop 2)))
  else if c = '.' ∧ Text.startsWithAny Char.isDigit cs then some (number (Number.afterDot cs))
  else if c = '\'' then some quote
  else if c = '"' then some (text (Quotation.extent '"' .unterminatedString cs))
  else if c = '!' then some (bang (if Text.startsWithAny (· == '=') cs then 1 else 0))
  else symbol? c cs

end Lexeme

end MFile.Lexing
