import MFile.Lexing.Lexeme
import MFile.Lexing.State
import MFile.Source.Text

/-!
Reading a text into tokens. Each step skips blanks, decides what the next token is and how far it
goes, and takes it; reading ends at the end of the text or at the first fault. Nothing is lost:
whatever follows the last token is kept as the trailing text.
-/

namespace MFile.Lexing

/-- The decision about the token ahead: `more` counts its characters after the first, `skipped`
and `length` place a fault. -/
inductive Decision
  | token (kind : Kind) (more : Nat) (mode : Mode)
  | fault (fault : Fault) (skipped length : Nat)
deriving DecidableEq, Repr

def Decision.ofExtent (kind : Kind) (mode : Mode) : Extent → Decision
  | .sound more => .token kind more mode
  | .faulty found more => .fault found 0 (more + 1)

namespace State

def opensBlock (st : State) (word : String) (after : List Char) : Bool :=
  Word.isPositional word &&
    if word = "arguments" then
      st.blocks.head? == some .function &&
        (match after.dropWhile Text.isBlank with
          | [] => true
          | c :: _ => Text.isBreak c || c == '%' || c == '#' || c == '(')
    else st.blocks.head? == some .classBody

def modeAfterName (st : State) (more : Nat) (word : String) (after : List Char) : Mode :=
  if st.statementStart && st.blocks.head? != some .declarations then
    let chain := Command.chain after
    if Command.follows (after.drop chain) then
      if chain = 0 then .command (if Command.pathHeads.contains word then .path else .words)
      else .commandAfter (st.cursor.skip (more + 1 + chain)).offset .words
    else st.mode
  else st.mode

def decideWord (st : State) (c : Char) (cs : List Char) (more : Nat) : Decision :=
  let word := String.ofList (c :: cs.take more)
  let after := cs.drop more
  if st.previous.any (·.kind == .selection) then .token .identifier more st.mode
  else if Word.isReserved word then .token .keyword more st.mode
  else if st.statementStart && st.opensBlock word after then .token .keyword more st.mode
  else .token .identifier more (st.modeAfterName more word after)

def decideComment (st : State) (c : Char) (cs : List Char) (more : Nat) : Decision :=
  match blockClose? (c :: cs.take more) with
  | some close =>
    if st.firstInLine then
      match blockBody? close (cs.drop more) with
      | some body => .token .comment (more + body) st.mode
      | none => .fault .unterminatedBlockComment 0 (more + 1)
    else .token .comment more st.mode
  | none => .token .comment more st.mode

def decideQuote (st : State) (cs : List Char) : Decision :=
  match st.quoteReading with
  | .transpose => .token .operator 0 st.mode
  | .ambiguous => .fault .ambiguousQuote 0 1
  | .literal => .ofExtent .charArray st.mode (Quotation.extent '\'' .unterminatedCharArray cs)

/-- At the start of a statement `!` hands the rest of its line to the shell. -/
def decideBang (st : State) (octave : Bool) (cs : List Char) (more : Nat) : Decision :=
  if octave then .token .operator more st.mode
  else if st.statementStart then .token .bang (more + restOfLine (cs.drop more)) st.mode
  else .fault .unexpectedCharacter 0 1

def decidePlain (st : State) (octave : Bool) (c : Char) (cs : List Char) : Decision :=
  match Lexeme.ofChars? c cs with
  | none => .fault .unexpectedCharacter 0 1
  | some (.newline more) => .token .newline more st.mode
  | some (.continuation more) => .token .continuation more st.mode
  | some (.comment more) => st.decideComment c cs more
  | some (.word more) => st.decideWord c cs more
  | some (.number extent) => .ofExtent .number st.mode extent
  | some .quote => st.decideQuote cs
  | some (.text extent) => .ofExtent .string st.mode extent
  | some (.bang more) => st.decideBang octave cs more
  | some (.symbol kind more) => .token kind more st.mode

def decideCommand (st : State) (kind : CommandKind) (c : Char) (cs : List Char) : Decision :=
  if Command.continues (c :: cs) then
    match kind with
    | .words => .token .continuation (throughBreak cs) st.mode
    | .path => .fault .continuationInDirectoryCommand 0 3
  else
    match kind, Command.text kind false (c :: cs) with
    | _, .error length => .fault .unterminatedCharArray 0 length
    | .words, .ok length => .token .charArray (length - 1) st.mode
    | .path, .ok length =>
      let path := Text.trimEnd Text.isBlank ((c :: cs).take length)
      match Command.dotsAt? path with
      | some skipped => .fault .continuationInDirectoryCommand skipped 3
      | none => .token .directory (path.length - 1) st.mode

def decide (st : State) (octave : Bool) (c : Char) (cs : List Char) : Decision :=
  match st.mode with
  | .command kind =>
    if Command.isStop c then { st with mode := .normal }.decidePlain octave c cs
    else st.decideCommand kind c cs
  | _ => st.decidePlain octave c cs

def pastBlanks (st : State) : State :=
  let blanks := Text.run Text.isBlank st.cursor.rest
  { st with
    cursor := st.cursor.skip blanks
    afterBlank := st.afterBlank || 0 < blanks
    mode := st.mode.reached st.cursor.offset }

end State

structure Piece where
  gap : List Char
  token : Token
deriving DecidableEq

inductive Step
  | finished
  | failed (error : LexError)
  | taken (pieces : List Piece) (next : State)

def State.step (st : State) (file : String) (octave : Bool) : Step :=
  let ready := st.pastBlanks
  match ready.cursor.rest with
  | [] => .finished
  | c :: cs =>
    match ready.decide octave c cs with
    | .fault fault skipped length => .failed (ready.error file fault skipped length)
    | .token kind more mode =>
      let result := { ready with mode := mode }.take file kind more
      let gap := st.cursor.rest.takeWhile Text.isBlank
      .taken (result.comma.toList.map (⟨[], ·⟩) ++ [⟨gap, result.token⟩]) result.next

theorem State.step_shorter {st next : State} {file : String} {octave : Bool}
    {pieces : List Piece} (h : st.step file octave = .taken pieces next) :
    next.cursor.rest.length < st.cursor.rest.length := by
  simp only [step] at h
  split at h
  · cases h
  · rename_i c cs hrest
    split at h
    · cases h
    · simp only [take, Step.taken.injEq] at h
      obtain ⟨-, rfl⟩ := h
      have hle : (c :: cs).length ≤ st.cursor.rest.length := by
        rw [← hrest, pastBlanks, Cursor.rest_skip]
        simp
      simp only [Cursor.rest_skip, hrest, List.length_drop, List.length_cons] at hle ⊢
      omega

end MFile.Lexing

namespace MFile

open Lexing

structure Scan where
  pieces : List Piece
  failure : Option LexError
  trailing : List Char

namespace Scan

def ofState (file : String) (octave : Bool) (st : State) : Scan :=
  match h : st.step file octave with
  | .finished => ⟨[], none, st.cursor.rest⟩
  | .failed error => ⟨[], some error, st.cursor.rest⟩
  | .taken pieces next =>
    have := State.step_shorter h
    let later := ofState file octave next
    { later with pieces := pieces ++ later.pieces }
termination_by st.cursor.rest.length

def ofSource (source : SourceText) (settings : Settings) : Scan :=
  ofState source.name settings.octave (State.ofText source.text)

def tokens (scan : Scan) : List Token := scan.pieces.map (·.token)

end Scan

end MFile
