import MFile.Lexing.Command
import MFile.Lexing.Cursor
import MFile.Lexing.Fault

/-!
What the reader of a text remembers: the last significant token, the open brackets and the blocks
around it, and whether a line, a statement or a command is being begun.
-/

namespace MFile.Lexing

inductive Block
  | classBody
  | function
  | methods
  | declarations
  | control
deriving DecidableEq, Repr

def Block.ofWord? (word : String) : Option Block :=
  match word with
  | "classdef" => some classBody
  | "function" => some function
  | "methods" => some methods
  | "properties" | "events" | "enumeration" | "arguments" => some declarations
  | "if" | "for" | "parfor" | "while" | "switch" | "try" | "spmd" => some control
  | _ => none

/-- An open bracket; `params` if it holds the parameters of an anonymous function. -/
structure Bracket where
  kind : Kind
  params : Bool
deriving DecidableEq, Repr

structure Previous where
  kind : Kind
  transpose : Bool
  /-- An operand may end with it. -/
  endsValue : Bool
  /-- It closes the parameters of an anonymous function. -/
  endsParams : Bool
deriving DecidableEq, Repr

inductive Mode
  | normal
  /-- A command whose dotted head ends at this byte offset. -/
  | commandAfter (offset : Nat) (kind : CommandKind)
  | command (kind : CommandKind)
deriving DecidableEq, Repr

def Mode.reached (offset : Nat) : Mode → Mode
  | commandAfter headEnd kind =>
    if offset = headEnd then command kind
    else if headEnd < offset then normal
    else commandAfter headEnd kind
  | mode => mode

inductive QuoteReading
  | literal
  | transpose
  | ambiguous
deriving DecidableEq, Repr

structure State where
  cursor : Cursor
  line : CurrentLine Nat
  firstInLine : Bool := true
  firstInStatement : Bool := true
  afterBlank : Bool := false
  previous : Option Previous := none
  brackets : List Bracket := []
  blocks : List Block := []
  mode : Mode := .normal

structure Taken where
  comma : Option Token
  token : Token
  next : State

namespace State

def ofText (text : String) : State :=
  { cursor := { rest := text.toList }, line := .first text.toList }

def inRow (st : State) : Bool :=
  match st.brackets with
  | b :: _ => b.kind == .lbracket || b.kind == .lbrace
  | [] => false

def statementStart (st : State) : Bool := st.firstInStatement && st.brackets.isEmpty

/-- A quote that touches an operand transposes it; after a blank, or where an operand may begin,
it opens a literal. -/
def quoteReading (st : State) : QuoteReading :=
  if st.afterBlank || st.firstInLine then .literal
  else
    match st.previous with
    | none => .literal
    | some p =>
      match p.kind with
      | .identifier | .number | .charArray | .string | .rparen | .rbracket | .rbrace => .transpose
      | .operator => if p.transpose then .transpose else .literal
      | .lparen | .lbracket | .lbrace | .comma | .assignment | .semicolon | .colon => .literal
      | _ => .ambiguous

/-- A token that opens an element of a row; a sign does unless a blank follows it. -/
def opensElement (kind : Kind) (raw : String) (after : List Char) : Bool :=
  match kind with
  | .identifier | .number | .charArray | .string | .lparen | .lbracket | .lbrace | .handle
  | .metaclass => true
  | .operator =>
    ["+", "-", "~", "!"].contains raw &&
      !Text.startsWithAny (fun c => Text.isBlank c || Text.isBreak c) after
  | _ => false

/-- Blanks between two elements of a row stand for a comma. -/
def needsComma (st : State) (kind : Kind) (raw : String) (after : List Char) : Bool :=
  st.afterBlank && st.inRow && st.previous.any (fun p => p.endsValue && !p.endsParams) &&
    opensElement kind raw after

def bracketsAfter (st : State) (kind : Kind) : List Bracket :=
  if kind.isOpening then
    ⟨kind, kind == .lparen && st.previous.any (·.kind == .handle)⟩ :: st.brackets
  else if kind.isClosing then st.brackets.tail
  else st.brackets

/-- An `end` inside brackets is a value and closes no block. -/
def blocksAfter (st : State) (kind : Kind) (raw : String) : List Block :=
  if kind = .keyword then
    match Block.ofWord? raw with
    | some block => block :: st.blocks
    | none => if raw = "end" ∧ st.brackets.isEmpty then st.blocks.tail else st.blocks
  else st.blocks

def firstInStatementAfter (st : State) (kind : Kind) (raw : String) : Bool :=
  match kind with
  | .newline => true
  | .semicolon | .comma => st.brackets.isEmpty
  | .keyword => ["else", "try", "otherwise"].contains raw
  | .comment | .continuation => st.firstInStatement
  | _ => false

def previousAfter (st : State) (kind : Kind) (raw : String) : Option Previous :=
  if kind.isTrivia then st.previous
  else
    let transpose := kind == .operator && (raw == "'" || raw == ".'")
    some {
      kind := kind
      transpose := transpose
      endsValue :=
        [.identifier, .number, .charArray, .string].contains kind || kind.isClosing || transpose ||
          (kind == .keyword && raw == "end")
      endsParams := kind.isClosing && (st.brackets.head?.any (·.params)) }

def take (st : State) (file : String) (kind : Kind) (more : Nat) : Taken :=
  let start := st.cursor
  let text := start.rest.take (more + 1)
  let stop := start.skip (more + 1)
  let raw := String.ofList text
  let token : Token := {
    kind := kind
    raw := raw
    location := st.line.locate file start.offset text
    span := ⟨start.offset, stop.offset⟩
    firstInLine := st.firstInLine
    firstInStatement := st.firstInStatement }
  let looked := st.line.lookedAt start.offset
  let comma : Token := {
    kind := .comma
    raw := ""
    location := looked.locate file start.offset []
    span := ⟨start.offset, start.offset⟩
    anonymous := true }
  let separated := st.needsComma kind raw stop.rest
  { comma := if separated then some comma else none
    token := token
    next := {
      cursor := stop
      line := (if separated then looked.lookedAt start.offset else looked).pass token
      firstInLine := text.contains '\n'
      firstInStatement := st.firstInStatementAfter kind raw
      afterBlank := kind == .continuation
      previous := st.previousAfter kind raw
      brackets := st.bracketsAfter kind
      blocks := st.blocksAfter kind raw
      mode := st.mode } }

def error (st : State) (file : String) (fault : Fault) (skipped length : Nat) : LexError :=
  let start := st.cursor.skip skipped
  let text := start.rest.take length
  { fault := fault
    location := st.line.locate file start.offset text
    span := ⟨start.offset, (start.skip length).offset⟩
    text := text }

end State

end MFile.Lexing
