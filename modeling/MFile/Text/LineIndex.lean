import MFile.Text.Blank
import MFile.Text.Bytes

/-!
The lines of a text and where they start. Looking up an offset counts the line starts up to it;
its column is the number of characters since the last of them. Lines and columns are numbers of
32 bits.
-/

namespace MFile.Text

/-- The offsets just past each line break of a text that begins at `offset`. -/
def startsAfterBreaks : Nat → List Char → List Nat
  | _, [] => []
  | offset, c :: cs =>
    let next := offset + c.utf8Size
    if c = '\n' then next :: startsAfterBreaks next cs else startsAfterBreaks next cs

end MFile.Text

namespace MFile

structure LineIndex where
  text : List Char
  starts : List Nat

namespace LineIndex

def ofText (text : String) : LineIndex := ⟨text.toList, 0 :: Text.startsAfterBreaks 0 text.toList⟩

def lineCount (index : LineIndex) : Nat := (UInt32.ofNat index.starts.length).toNat

/-- The line, counted from one, and the column, counted from zero, of a byte offset. Offsets past
the end stand for the end; inside a character the column is taken as zero. -/
def lineCol (index : LineIndex) (offset : Nat) : Nat × Nat :=
  let found := index.starts.countP (· ≤ offset) - 1
  let start := index.starts.getD found 0
  let upTo := Text.slice? index.text start (min offset (Text.byteCount index.text))
  ((UInt32.ofNat found + 1).toNat, (UInt32.ofNat (upTo.elim 0 List.length)).toNat)

/-- The text of a line, counted from one, without its line break. -/
def line? (index : LineIndex) (line : Nat) : Option String :=
  match line with
  | 0 => none
  | k + 1 => do
    let start ← index.starts[k]?
    let stop := (index.starts[k + 1]?).elim (Text.byteCount index.text) (· - 1)
    let content ← Text.slice? index.text start stop
    return String.ofList (Text.dropReturn content)

end LineIndex

end MFile
