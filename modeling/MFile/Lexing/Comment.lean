import MFile.Text.Blank

/-!
Line breaks, continuations and comments. A line break takes the blank lines after it along, a
continuation the rest of its line, and a block comment every line up to the one that closes it.
-/

namespace MFile.Lexing

def blankLines (cs : List Char) : Nat :=
  (Text.trimEnd (· ≠ '\n') (cs.takeWhile fun c => Text.isBlank c || Text.isBreak c)).length

def throughBreak (cs : List Char) : Nat := min (Text.run (· ≠ '\n') cs + 1) cs.length

def restOfLine (cs : List Char) : Nat := Text.run (fun c => !Text.isBreak c) cs

def fullLines : List Char → List (List Char)
  | [] => []
  | c :: cs =>
    if c = '\n' then [c] :: fullLines cs
    else
      match fullLines cs with
      | [] => [[c]]
      | line :: lines => (c :: line) :: lines

def closingLine? (close : List Char) : List (List Char) → Option Nat
  | [] => none
  | line :: lines =>
    let content := Text.trimEnd Text.isBreak line
    if Text.trim Text.isWhiteSpace content = close then some content.length
    else (closingLine? close lines).map (line.length + ·)

/-- The mark that closes the block comment which a line with nothing but this comment opens. -/
def blockClose? (comment : List Char) : Option (List Char) :=
  match Text.trimEnd Text.isWhiteSpace comment with
  | ['%', '{'] => some ['%', '}']
  | ['#', '{'] => some ['#', '}']
  | _ => none

def blockBody? (close rest : List Char) : Option Nat :=
  match fullLines rest with
  | [] => none
  | line :: lines => (closingLine? close lines).map (line.length + ·)

end MFile.Lexing
