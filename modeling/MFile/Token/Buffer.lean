import MFile.Lexing.Scan

/-!
All tokens of a file with the blanks between them, so that the text can be written out again. A
rule about spacing keeps its wishes apart from the tokens, by token index: to trim a gap away, or
to see at least one space in it. Trimming wins, and what stands at the start of a line is never
touched.
-/

namespace MFile

structure Fix where
  spaceBefore : Bool := false
  spaceAfter : Bool := false
  trimBefore : Bool := false
  trimAfter : Bool := false
deriving DecidableEq, Repr

abbrev FixHints := List (Nat × Fix)

namespace FixHints

def get (hints : FixHints) (index : Nat) : Fix := (hints.lookup index).getD {}

def update (hints : FixHints) (index : Nat) (change : Fix → Fix) : FixHints :=
  (index, change (hints.get index)) :: hints.filter (·.1 != index)

end FixHints

structure TokenBuffer where
  pieces : List Lexing.Piece
  trailing : List Char

namespace TokenBuffer

def ofSource (source : SourceText) (settings : Settings) : Except LexError TokenBuffer :=
  let scan := Scan.ofSource source settings
  match scan.failure with
  | some error => .error error
  | none => .ok ⟨scan.pieces, scan.trailing⟩

def tokens (buffer : TokenBuffer) : List Token := buffer.pieces.map (·.token)

def size (buffer : TokenBuffer) : Nat := buffer.pieces.length

def get? (buffer : TokenBuffer) (index : Nat) : Option Token := buffer.tokens[index]?

/-- The gap before a token that wants `here`, after a token that wants `before`. -/
def fixedGap (before here : Fix) (gap : List Char) : List Char :=
  if here.trimBefore || before.trimAfter then []
  else if (here.spaceBefore || before.spaceAfter) && gap.isEmpty then [' ']
  else gap

/-- The text of the pieces, the first of which has the given index. `before` is what the last
written token wants. -/
def replayFrom (hints : FixHints) : Nat → Bool → Fix → List Lexing.Piece → List Char
  | _, _, _, [] => []
  | index, lineStart, before, piece :: pieces =>
    if piece.token.anonymous then replayFrom hints (index + 1) lineStart before pieces
    else
      let raw := piece.token.raw.toList
      let here := hints.get index
      let gap := if lineStart then piece.gap else fixedGap before here piece.gap
      gap ++ raw ++ replayFrom hints (index + 1) (raw.getLast? == some '\n') here pieces

def replayWith (buffer : TokenBuffer) (hints : FixHints) : String :=
  String.ofList (replayFrom hints 0 true {} buffer.pieces ++ buffer.trailing)

def replay (buffer : TokenBuffer) : String := buffer.replayWith []

end TokenBuffer

end MFile
