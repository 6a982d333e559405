import MFile.Token.Basic

/-!
What can be wrong with a text before any grammar looks at it, and the error that says where.
-/

namespace MFile.Text

def hexadecimal (n : Nat) : String := String.ofList (Nat.toDigits 16 n)

/-- A character as a message shows it: printable ASCII as it is, the quotes, the backslash and the
usual controls behind a backslash, everything else by its code point in hexadecimal. -/
def shownChar (c : Char) : String :=
  match c with
  | '\t' => "\\t"
  | '\r' => "\\r"
  | '\n' => "\\n"
  | '\'' => "\\'"
  | '"' => "\\\""
  | '\\' => "\\\\"
  | _ =>
    if 0x20 ≤ c.toNat ∧ c.toNat ≤ 0x7E then c.toString
    else "\\u\x7b" ++ hexadecimal c.toNat ++ "\x7d"

end MFile.Text

namespace MFile.Lexing

inductive Fault
  | unexpectedCharacter
  | unterminatedCharArray
  | unterminatedString
  | malformedNumber
  | ambiguousQuote
  | continuationInDirectoryCommand
  | unterminatedBlockComment
deriving DecidableEq, Repr

namespace Fault

def name : Fault → String
  | unexpectedCharacter => "UnexpectedCharacter"
  | unterminatedCharArray => "UnterminatedCharArray"
  | unterminatedString => "UnterminatedString"
  | malformedNumber => "MalformedNumber"
  | ambiguousQuote => "AmbiguousQuote"
  | continuationInDirectoryCommand => "ContinuationInDirectoryCommand"
  | unterminatedBlockComment => "UnterminatedBlockComment"

def message (text : List Char) : Fault → String
  | unexpectedCharacter => "Unexpected character '" ++ Text.shownChar (text.headD '?') ++ "'"
  | unterminatedCharArray => "Unterminated character array"
  | unterminatedString => "Unterminated string"
  | malformedNumber => "Malformed number '" ++ String.ofList text ++ "'"
  | ambiguousQuote => "Cannot tell whether ' is a transpose or starts a character array"
  | continuationInDirectoryCommand => "Continuation is not allowed in a directory command"
  | unterminatedBlockComment => "Unterminated block comment"

def hint? : Fault → Option String
  | unexpectedCharacter => none
  | unterminatedCharArray => some "add a closing ' before the end of the line"
  | unterminatedString => some "add a closing \" before the end of the line"
  | malformedNumber => some "a number has at most one decimal point"
  | ambiguousQuote =>
    some "put a space before a character array, or parenthesise the transposed operand"
  | continuationInDirectoryCommand => some "write the whole path on one line"
  | unterminatedBlockComment => some "close it with a line containing only %\x7d"

end Fault

end MFile.Lexing

namespace MFile

structure LexError where
  fault : Lexing.Fault
  location : Location
  span : Span
  text : List Char
deriving DecidableEq

def LexError.message (e : LexError) : String := e.fault.message e.text

def LexError.hint? (e : LexError) : Option String := e.fault.hint?

end MFile
