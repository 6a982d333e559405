import MFile.Lexing.Quotation

/-!
Command syntax: a name at the start of a statement, blanks, and then words that are not read as an
expression. `cd`, `mkdir` and `rmdir` take the rest of the line as one path instead of words.
-/

namespace MFile.Lexing

inductive CommandKind
  | words
  | path
deriving DecidableEq, Repr

namespace Command

def pathHeads : List String := ["cd", "mkdir", "rmdir"]

/-- Operators which, with a blank after them, continue an expression. Longer ones come first. -/
def infixOperators : List (List Char) :=
  [['=', '='], ['~', '='], ['!', '='], ['<', '='], ['>', '='], ['&', '&'], ['|', '|'],
    ['.', '^'], ['.', '*'], ['.', '/'], ['.', '\\'], ['+'], ['-'], ['*'], ['/'], ['\\'],
    ['^'], ['<'], ['>'], ['&'], ['|'], [':']]

def isStop (c : Char) : Bool := Text.isBreak c || c == ';' || c == ',' || c == '%' || c == '#'

/-- The length of the `.name` parts after a name; `named` once one of them has begun. -/
def chainFrom : Bool → List Char → Nat
  | _, [] => 0
  | named, c :: cs =>
    if named && Text.isNameChar c then 1 + chainFrom true cs
    else
      match cs with
      | d :: ds => if c = '.' ∧ d.isAlpha then 2 + chainFrom true ds else 0
      | [] => 0

def chain (cs : List Char) : Nat := chainFrom false cs

def continues (cs : List Char) : Bool := ['.', '.', '.'].isPrefixOf cs

def startsInfix (cs : List Char) : Bool :=
  match infixOperators.find? (·.isPrefixOf cs) with
  | some op =>
    match cs.drop op.length with
    | [] => true
    | c :: _ => Text.isBlank c || Text.isBreak c
  | none => false

/-- The text after a name makes it a command: blanks, then something that cannot continue an
expression. -/
def follows (after : List Char) : Bool :=
  let body := after.dropWhile Text.isBlank
  Text.startsWithAny Text.isBlank after &&
    (match body with
      | [] => false
      | c :: cs => !(isStop c || c == '(') && !(c == '=' && !Text.startsWithAny (· == '=') cs)) &&
    !continues body && !startsInfix body

/-- The length of command text. Blanks end a word, not a path; what is quoted ends neither. An
open quote gives the length up to the end of the line as an error. -/
def text (kind : CommandKind) : Bool → List Char → Except Nat Nat
  | false, [] => .ok 0
  | true, [] => .error 0
  | false, c :: cs =>
    if isStop c || (kind == .words && Text.isBlank c) then .ok 0
    else ((text kind (c == '\'') cs).map (1 + ·)).mapError (1 + ·)
  | true, c :: cs =>
    if Text.isBreak c then .error 0
    else if c = '\'' then
      match cs with
      | d :: ds =>
        if d = '\'' then ((text kind true ds).map (2 + ·)).mapError (2 + ·)
        else ((text kind false (d :: ds)).map (1 + ·)).mapError (1 + ·)
      | [] => .ok 1
    else ((text kind true cs).map (1 + ·)).mapError (1 + ·)

def dotsAt? : List Char → Option Nat
  | [] => none
  | c :: cs => if continues (c :: cs) then some 0 else (dotsAt? cs).map (1 + ·)

end Command

end MFile.Lexing
