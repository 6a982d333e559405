import MFile.Location
import MFile.Text.Blank
import MFile.Text.Quoted
import MFile.Token.Kind

/-!
Tokens. A token keeps the exact text it was read from; its value is that text without the marks
that only say what kind of token it is. An anonymous token is a comma that nobody wrote: it stands
where blanks separate two elements of a row.
-/

namespace MFile

/-- Byte offsets into the text, the end excluded. -/
structure Span where
  start : Nat
  stop : Nat
deriving DecidableEq, Repr

def Span.length (s : Span) : Nat := s.stop - s.start

def Span.isEmpty (s : Span) : Bool := s.start == s.stop

structure Token where
  kind : Kind
  raw : String
  location : Location
  span : Span
  firstInLine : Bool := false
  firstInStatement : Bool := false
  anonymous : Bool := false
deriving DecidableEq

/-- The body of a text that began with the opening mark of a block comment, up to its closing mark
if that ends it, without the line breaks at both ends. -/
def blockCommentText (close body : List Char) : List Char :=
  let kept := Text.trimEnd Text.isWhiteSpace body
  let inner := if close.isSuffixOf kept then kept.take (kept.length - close.length) else kept
  Text.trim Text.isBreak inner

def commentText : List Char → List Char
  | '%' :: '{' :: body => blockCommentText ['%', '}'] body
  | '#' :: '{' :: body => blockCommentText ['#', '}'] body
  | '%' :: body => body
  | '#' :: body => body
  | body => body

def continuationText (raw : List Char) : List Char :=
  let rest := if ['.', '.', '.'].isPrefixOf raw then raw.drop 3 else raw
  Text.dropReturn (if rest.getLast? = some '\n' then rest.dropLast else rest)

def isQuotedPath (raw : List Char) : Bool :=
  2 ≤ raw.length && raw.head? == some '\'' && raw.getLast? == some '\''

def Kind.valueOf (kind : Kind) (raw : String) : String :=
  match kind with
  | .charArray => Text.dequote '\'' raw
  | .string => Text.dequote '"' raw
  | .comment => String.ofList (commentText raw.toList)
  | .continuation => String.ofList (continuationText raw.toList)
  | .bang =>
    match raw.toList with
    | '!' :: rest => String.ofList rest
    | _ => raw
  | .directory => if isQuotedPath raw.toList then Text.dequote '\'' raw else raw
  | _ => raw

namespace Token

def value (t : Token) : String := t.kind.valueOf t.raw

def isWord (t : Token) (word : String) : Bool := t.kind == .keyword && t.raw == word

def isOperator (t : Token) (symbol : String) : Bool := t.kind == .operator && t.raw == symbol

def isTranspose (t : Token) : Bool := t.isOperator "'" || t.isOperator ".'"

def isCloser (t : Token) : Bool := t.kind == .keyword && Word.closers.contains t.raw

def isSeparator (t : Token) : Bool := t.kind.isSeparator

def lineBreaks (t : Token) : Nat := t.raw.toList.count '\n'

end Token

end MFile
