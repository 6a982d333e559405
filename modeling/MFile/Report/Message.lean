import MFile.Lexing.Fault
import MFile.Source.Loading

/-!
Messages to the user. A message says where it belongs, how grave it is, what is wrong and, where
something useful can be said, what to do about it.
-/

namespace MFile

inductive Severity
  | info
  | style
  | warning
  | lexError
  | error
deriving DecidableEq, Repr

namespace Severity

def all : List Severity := [info, style, warning, lexError, error]

def label : Severity → String
  | info => "info"
  | style => "style"
  | warning => "warning"
  | lexError => "lex error"
  | error => "error"

def key : Severity → String
  | lexError => "lex-error"
  | other => other.label

def ofKey? (text : String) : Option Severity := all.find? (·.key == text)

def isError : Severity → Bool
  | lexError | error => true
  | _ => false

theorem ofKey?_key (s : Severity) : ofKey? s.key = some s := by cases s <;> rfl

end Severity

structure Message where
  location : Location
  severity : Severity
  text : String
  hint : Option String := none
  fatal : Bool := false
deriving DecidableEq

namespace Message

def agrees (a b : Message) : Bool :=
  a.location.agrees b.location && a.severity == b.severity && a.text == b.text &&
    a.hint == b.hint && a.fatal == b.fatal

def ofLexError (e : LexError) : Message := ⟨e.location, .lexError, e.message, e.hint?, false⟩

def ofSourceError (e : SourceError) : Message :=
  { location := ⟨e.path, .file, none⟩, severity := .error, text := e.message }

end Message

end MFile
