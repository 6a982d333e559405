import MFile.Report.Message
import MFile.Tree.Decl

/-!
Why a file could not be parsed. An error names its cause; what is said about it, and what is
suggested, follows from the cause alone.
-/

namespace MFile.Grammar

inductive Frame
  | function
  | classBody
  | loop
  | conditional
  | switch
  /-- The bodies of `try`, `catch` and `spmd`. -/
  | region
deriving DecidableEq, Repr

def Frame.described : Frame → String
  | function => "a function"
  | classBody => "a classdef"
  | loop => "a loop"
  | conditional => "an if block"
  | switch => "a switch block"
  | region => "a try or spmd block"

inductive Expectation
  | closer (kind : Kind)
  /-- The end of an element of a row in brackets that `kind` closes. -/
  | elementEnd (kind : Kind)
  | blockEnd
  | armOrEnd
  | expression
  | identifier
  | outputAssignment
  | loopAssignment
  | separator
deriving DecidableEq, Repr

namespace Expectation

def text : Expectation → String
  | closer kind => kind.displayName
  | elementEnd kind => "',', ';' or " ++ kind.displayName
  | blockEnd => "keyword 'end'"
  | armOrEnd => "keyword 'case', 'otherwise' or 'end'"
  | expression => "expression"
  | identifier => "identifier"
  | outputAssignment => "'=' after the output list"
  | loopAssignment => "'='"
  | separator => "newline, ';' or ',' after statement"

/-- A suggestion, by what was found instead; `none` is the end of the file. -/
def hint? : Expectation → Option Kind → Option String
  | closer .rparen, none => some "add ')' to close the parenthesis"
  | closer .rparen, some .newline => some "an argument list cannot span lines without '...'"
  | closer .rparen, some .assignment =>
    some "use '==' to compare; name=value arguments are not supported"
  | closer .rparen, some _ => some "separate items with ','"
  | closer .rbracket, none => some "add ']' to close the matrix"
  | closer .rbrace, none => some "add '\x7d' to close the cell array"
  | closer _, _ => none
  | elementEnd _, _ =>
    some "separate elements with ',' or a space, and rows with ';' or a line break"
  | blockEnd, none => some "every block needs a matching 'end'"
  | blockEnd, some _ => some "close the block with 'end'"
  | armOrEnd, _ => some "a switch body holds only 'case' and 'otherwise' branches"
  | expression, some .assignment => some "put the value after '='"
  | expression, none | expression, some .newline | expression, some .semicolon =>
    some "statement is incomplete"
  | expression, some .keyword => some "'end' as a value is only allowed inside an index"
  | expression, some .rparen | expression, some .rbracket | expression, some .rbrace =>
    some "an operator is missing its right-hand side"
  | expression, some _ => some "try a value, variable, or function call"
  | identifier, some .number => some "names can't start with a number"
  | identifier, some .keyword => some "keywords cannot be used as names"
  | identifier, _ => some "names start with a letter"
  | outputAssignment, _ => some "multiple outputs are written as [a, b] = f(...)"
  | loopAssignment, none | loopAssignment, some .newline | loopAssignment, some .semicolon =>
    some "a loop needs a variable and a range, as in 'for k = 1:n'"
  | loopAssignment, some _ => some "assign the loop range with '=', as in 'k = 1:n'"
  | separator, some .identifier | separator, some .number =>
    some "put each statement on its own line, or separate them with ';' or ','"
  | separator, _ => some "end statements with a newline, ';' or ','"

end Expectation

def described : Option Token → String
  | none => "end of file"
  | some t =>
    match t.kind with
    | .identifier | .keyword | .number | .operator | .charArray | .string =>
      t.kind.displayName ++ " '" ++ t.raw ++ "'"
    | .comma => if t.anonymous then "whitespace" else t.kind.displayName
    | kind => kind.displayName

inductive Cause
  | expected (what : Expectation) (found : Option Token)
  | openBlock (opener : String) (line : Nat) (found : Option Token)
  | classItem (found : Option Token)
  | afterFunctions (found : Option Token)
  | strayCloser (word : String)
  | functionInside (frame : Frame)
  | lateClass
  | strayKeyword (word : String)
  | outsideLoop (word : String)
  | compoundOutput
  | openFunction (name : String)
  | openMethod (name : String)
  | strayPlaceholder
  | notAssignable (kindName : String)
deriving DecidableEq

namespace Cause

def expectedText (what : String) (found : Option Token) : String :=
  "Expected " ++ what ++ ", found " ++ described found

def message : Cause → String
  | expected (.closer kind) none => "Unclosed bracket, missing " ++ kind.displayName
  | expected what found => expectedText what.text found
  | openBlock _ _ found | classItem found => expectedText Expectation.blockEnd.text found
  | afterFunctions found => expectedText "keyword 'function'" found
  | strayCloser word => "'" ++ word ++ "' without a matching block"
  | functionInside frame => "Function definitions cannot appear inside " ++ frame.described
  | lateClass => "'classdef' must start its file"
  | strayKeyword word => "Unexpected keyword '" ++ word ++ "'"
  | outsideLoop word => "'" ++ word ++ "' is only allowed inside a loop"
  | compoundOutput => "Function outputs must be plain names"
  | openFunction name => "Function '" ++ name ++ "' is not terminated by 'end'"
  | openMethod name => "Method '" ++ name ++ "' is not terminated by 'end'"
  | strayPlaceholder => "'~' is only allowed on the left of an assignment"
  | notAssignable kindName => "Cannot assign to " ++ kindName

def hint? : Cause → Option String
  | expected what found => what.hint? (found.map (·.kind))
  | openBlock opener line _ => some ("to close the '" ++ opener ++ "' on line " ++ toString line)
  | classItem _ =>
    some "classdef bodies only accept properties, methods, events and enumeration blocks"
  | afterFunctions _ => some "statements cannot follow function definitions"
  | openFunction _ =>
    some "once one function in a file is closed by 'end', all of them must be"
  | openMethod _ => some "methods in a classdef are always closed by 'end'"
  | notAssignable _ => some "the left side of '=' must be a name, an index or a field"
  | _ => none

end Cause

inductive Defect
  | notBinary (text : String)
  | misplaced (item : Misplaced)
  | stalled
deriving DecidableEq

def Defect.message : Defect → String
  | notBinary text => "'" ++ text ++ "' is not a binary operator"
  | misplaced item => item.message
  | stalled => "no progress"

end MFile.Grammar

namespace MFile

open Grammar

inductive ParseError
  | lexical (error : LexError)
  | grammatical (location : Location) (cause : Cause)
  | internal (location : Location) (defect : Defect)
deriving DecidableEq

namespace ParseError

def location : ParseError → Location
  | lexical e => e.location
  | grammatical l _ | internal l _ => l

def message : ParseError → String
  | lexical e => e.message
  | grammatical _ cause => cause.message
  | internal _ defect => "internal parser error: " ++ defect.message

def hint? : ParseError → Option String
  | lexical e => e.hint?
  | grammatical _ cause => cause.hint?
  | internal .. => none

def isFatal : ParseError → Bool
  | internal .. => true
  | _ => false

end ParseError

def Message.ofParseError : ParseError → Message
  | .lexical e => .ofLexError e
  | .grammatical l cause => ⟨l, .error, cause.message, cause.hint?, false⟩
  | .internal l defect =>
    ⟨l, .error, (ParseError.internal l defect).message,
      some "this is a bug in the parser, please report it", true⟩

end MFile
