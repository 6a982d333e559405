import MFile.Text.Bytes
import MFile.Token.Basic

/-!
A place in the text while it is read: what lies ahead, and how many bytes lie behind. The line is
not counted along with it. Its number, where it starts and its text are kept from one token to the
next, and only a token with a break in it moves them; a column is counted from the start of the
line, or from the last byte whose column was asked for.
-/

namespace MFile.Lexing

def firstLine (cs : List Char) : String :=
  String.ofList (Text.dropReturn (cs.takeWhile (· ≠ '\n')))

structure Cursor where
  rest : List Char
  offset : Nat := 0

namespace Cursor

def next (c : Cursor) : Cursor :=
  match c.rest with
  | [] => c
  | ch :: rest => ⟨rest, c.offset + ch.utf8Size⟩

def skip (c : Cursor) : Nat → Cursor
  | 0 => c
  | n + 1 => c.next.skip n

theorem rest_next (c : Cursor) : c.next.rest = c.rest.drop 1 := by
  unfold next
  split <;> simp [*]

theorem rest_skip (c : Cursor) (n : Nat) : (c.skip n).rest = c.rest.drop n := by
  induction n generalizing c with
  | zero => rfl
  | succ n ih => rw [skip, ih, rest_next, List.drop_drop, Nat.add_comm]

end Cursor

/-- The line that is being read. Lines and columns are counted in `N`, which may be too small for
them; `known` is the last byte whose column was asked for, with that column. -/
structure CurrentLine (N : Type) where
  whole : List Char
  number : N
  start : Nat
  text : String
  known : Nat × N

namespace CurrentLine

variable {N : Type} [Add N] [NatCast N]

def textFrom (whole : List Char) (start : Nat) : String :=
  firstLine ((Text.dropBytes? start whole).getD [])

def first (whole : List Char) : CurrentLine N where
  whole := whole
  number := (1 : Nat)
  start := 0
  text := textFrom whole 0
  known := (0, (0 : Nat))

/-- A byte before `offset` whose column is known: the last one that was asked for, if it is on the
line, or else the start of the line. -/
def nearest (l : CurrentLine N) (offset : Nat) : Nat × N :=
  if l.start ≤ l.known.1 ∧ l.known.1 ≤ offset then l.known else (l.start, (0 : Nat))

def column (l : CurrentLine N) (offset : Nat) : N :=
  let near := l.nearest offset
  near.2 + (((Text.slice? l.whole near.1 offset).getD []).length : N)

def lookedAt (l : CurrentLine N) (offset : Nat) : CurrentLine N :=
  { l with known := (offset, l.column offset) }

def pass (l : CurrentLine N) (t : Token) : CurrentLine N :=
  let breaks := t.lineBreaks
  if 0 < breaks then
    let start := t.span.start + (Text.lastIndex? '\n' t.raw.toList).getD 0 + 1
    { l with
      number := l.number + (breaks : N)
      start := start
      text := textFrom l.whole start }
  else l

def behind (l : CurrentLine N) (t : Token) : CurrentLine N := (l.lookedAt t.span.start).pass t

/-- The location of a text that begins at `offset`; its columns are those on its first line. -/
def locate (l : CurrentLine Nat) (file : String) (offset : Nat) (text : List Char) : Location :=
  .ofSpan file l.number (.ofWidth (l.column offset) (Text.run (· ≠ '\n') text)) (some l.text)

end CurrentLine

instance natCastWord : NatCast UInt32 := ⟨UInt32.ofNat⟩

def CurrentLine.wordColumns (l : CurrentLine UInt32) (offset : Nat) (text : List Char) :
    Except ReversedColumns Columns :=
  Columns.covering (l.column offset) (UInt32.ofNat (max (Text.run (· ≠ '\n') text) 1))

end MFile.Lexing
