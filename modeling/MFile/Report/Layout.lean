import MFile.Report.Message

/-!
Messages as text for a terminal. The full layout shows the source line under the message, carets
under the columns it is about, and the hint; the brief one has a single line a message. A painted
text keeps its style to its end: where the text itself resets the style, the style is set again.
-/

namespace MFile

structure Layout where
  excerpt : Bool := true
  colour : Bool := false
deriving DecidableEq, Repr

namespace Layout

def full : Layout := {}

def brief : Layout := { excerpt := false }

def styleReset : String := "\x1b[0m"

def restyled (style : List Char) : List Char → List Char
  | '\x1b' :: '[' :: '0' :: 'm' :: cs => styleReset.toList ++ style ++ restyled style cs
  | c :: cs => c :: restyled style cs
  | [] => []

/-- Wraps the text in terminal codes where colours are on, an empty text too. -/
def paint (layout : Layout) (codes text : String) : String :=
  if layout.colour then
    let style := "\x1b[" ++ codes ++ "m"
    style ++ String.ofList (restyled style.toList text.toList) ++ styleReset
  else text

def severityCodes : Severity → String
  | .error | .lexError => "1;31"
  | .warning => "1;33"
  | .style => "1;35"
  | .info => "1;34"

def spaces (n : Nat) : String := String.ofList (List.replicate n ' ')

def lineNumber (n : Nat) : String := spaces (4 - (toString n).length) ++ toString n

def header (layout : Layout) (m : Message) : String :=
  m.location.shown ++ ": " ++ layout.paint (severityCodes m.severity) m.severity.label ++
    (if m.fatal then " (fatal)" else "") ++ ": " ++ layout.paint "1" m.text ++ "\n"

/-- How many blanks and then carets stand under a source line of `length` characters. The carets
never run past its end, but there is always one. -/
def caretSpan (columns : Columns) (length : Nat) : Nat × Nat :=
  let shown := (UInt32.ofNat length).toNat
  let start := min columns.first shown
  (start, max 1 (min columns.width (shown - start)))

def carets (layout : Layout) (columns : Columns) (line : String) : String :=
  let (start, width) := caretSpan columns line.length
  spaces 4 ++ " " ++ layout.paint "34" "|" ++ " " ++ spaces start ++
    layout.paint "1;31" (String.ofList (List.replicate width '^')) ++ "\n"

def source (layout : Layout) (location : Location) : String :=
  match location.line?, location.context with
  | some number, some line =>
    layout.paint "1;34" (lineNumber number) ++ " " ++ layout.paint "34" "|" ++ " " ++ line ++
      "\n" ++
      location.columns?.elim "" (layout.carets · line)
  | _, _ => ""

def help (layout : Layout) (hint : String) : String :=
  spaces 6 ++ layout.paint "36" "=" ++ " " ++ layout.paint "1;36" "help" ++ ": " ++ hint ++ "\n"

def format (layout : Layout) (m : Message) : String :=
  layout.header m ++
    if layout.excerpt then layout.source m.location ++ m.hint.elim "" layout.help else ""

def tally (errors warnings : Nat) : String :=
  toString errors ++ " error(s), " ++ toString warnings ++ " warning(s)\n"

def formatAll (layout : Layout) (messages : List Message) : String :=
  String.join (messages.map layout.format) ++
    tally (messages.countP (·.severity.isError)) (messages.countP (·.severity == .warning))

end Layout

end MFile
