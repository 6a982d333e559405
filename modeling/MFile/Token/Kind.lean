/-!
Kinds of tokens, and the words that are reserved. The five words of `positional` are reserved only
where a class body or a function preamble may open a block; everywhere else they are names.
-/

namespace MFile

inductive Kind
  | identifier
  | keyword
  | number
  | charArray
  | string
  | operator
  | comma
  | semicolon
  | colon
  | lparen
  | rparen
  | lbracket
  | rbracket
  | lbrace
  | rbrace
  | assignment
  | selection
  | handle
  | bang
  | metaclass
  | newline
  | continuation
  | comment
  | directory
deriving DecidableEq, Repr

namespace Kind

def all : List Kind :=
  [identifier, keyword, number, charArray, string, operator, comma, semicolon, colon, lparen,
    rparen, lbracket, rbracket, lbrace, rbrace, assignment, selection, handle, bang, metaclass,
    newline, continuation, comment, directory]

def name : Kind → String
  | identifier => "Identifier"
  | keyword => "Keyword"
  | number => "Number"
  | charArray => "CharArray"
  | string => "String"
  | operator => "Operator"
  | comma => "Comma"
  | semicolon => "Semicolon"
  | colon => "Colon"
  | lparen => "LParen"
  | rparen => "RParen"
  | lbracket => "LBracket"
  | rbracket => "RBracket"
  | lbrace => "LBrace"
  | rbrace => "RBrace"
  | assignment => "Assignment"
  | selection => "Selection"
  | handle => "At"
  | bang => "Bang"
  | metaclass => "Metaclass"
  | newline => "Newline"
  | continuation => "Continuation"
  | comment => "Comment"
  | directory => "Directory"

def ofName? (text : String) : Option Kind := all.find? fun kind => kind.name == text

def displayName : Kind → String
  | identifier => "identifier"
  | keyword => "keyword"
  | number => "number"
  | charArray => "character array"
  | string => "string"
  | operator => "operator"
  | comma => "','"
  | semicolon => "';'"
  | colon => "':'"
  | lparen => "'('"
  | rparen => "')'"
  | lbracket => "'['"
  | rbracket => "']'"
  | lbrace => "'\x7b'"
  | rbrace => "'\x7d'"
  | assignment => "'='"
  | selection => "'.'"
  | handle => "'@'"
  | bang => "shell escape"
  | metaclass => "'?'"
  | newline => "end of line"
  | continuation => "continuation"
  | comment => "comment"
  | directory => "directory argument"

def isOpening : Kind → Bool
  | lparen | lbracket | lbrace => true
  | _ => false

def isClosing : Kind → Bool
  | rparen | rbracket | rbrace => true
  | _ => false

/-- The grammar never sees these. -/
def isTrivia : Kind → Bool
  | comment | continuation => true
  | _ => false

def isSeparator : Kind → Bool
  | newline | semicolon | comma => true
  | _ => false

theorem mem_all (kind : Kind) : kind ∈ all := by cases kind <;> decide

theorem ofName?_name (kind : Kind) : ofName? kind.name = some kind := by cases kind <;> rfl

end Kind

namespace Word

def reserved : List String :=
  ["break", "case", "catch", "classdef", "continue", "else", "elseif", "end", "for", "function",
    "global", "if", "otherwise", "parfor", "persistent", "return", "spmd", "switch", "try",
    "while"]

def positional : List String := ["arguments", "enumeration", "events", "methods", "properties"]

def isReserved (text : String) : Bool := reserved.contains text

def isPositional (text : String) : Bool := positional.contains text

def closers : List String := ["end", "else", "elseif", "case", "otherwise", "catch"]

end Word

end MFile
