/-!
Where something lives in a file. Lines count from one and columns from zero, in characters. A
location may name the whole file, one line of it, or a range of columns on a line; a range may go
on to a later line, and then also carries the position of its last column.

Locations are ordered by file, line, first column, last column and end, where a missing part comes
first. The source line kept for messages takes no part in the order.
-/

namespace MFile

/-- Inclusive columns on one line. -/
structure Columns where
  first : Nat
  last : Nat
  first_le_last : first ≤ last := by omega
deriving DecidableEq

structure ReversedColumns where
  first : Nat
  last : Nat
deriving DecidableEq, Repr

def ReversedColumns.message (r : ReversedColumns) : String :=
  s!"column range {r.first}..{r.last} is reversed"

namespace Columns

def ofBounds (first last : Nat) : Except ReversedColumns Columns :=
  if h : first ≤ last then .ok ⟨first, last, h⟩ else .error ⟨first, last⟩

/-- The columns taken by `width` characters from `first` on; an empty text still marks one. -/
def ofWidth (first width : Nat) : Columns := ⟨first, first + max width 1 - 1, by omega⟩

/-- The columns from `first` on, where all of them are numbers of 32 bits. -/
def covering (first width : UInt32) : Except ReversedColumns Columns :=
  ofBounds first.toNat (first + width - 1).toNat

/-- Counted in 32 bits, so all columns together have none. -/
def width (c : Columns) : Nat := (UInt32.ofNat c.last - UInt32.ofNat c.first + 1).toNat

def reach (c : Columns) (last : Nat) : Columns :=
  ⟨c.first, max c.last last, Nat.le_trans c.first_le_last (Nat.le_max_left _ _)⟩

end Columns

structure Position where
  line : Nat
  column : Nat
deriving DecidableEq, Repr

def Position.later (a b : Position) : Position :=
  if a.line < b.line ∨ (a.line = b.line ∧ a.column < b.column) then b else a

inductive Place
  | file
  | line (line : Nat)
  | span (line : Nat) (columns : Columns) (stop : Option Position)
deriving DecidableEq

structure Location where
  file : String
  place : Place := .file
  context : Option String := none
deriving DecidableEq

namespace Location

def ofSpan (file : String) (line : Nat) (columns : Columns) (context : Option String) : Location :=
  ⟨file, .span line columns none, context⟩

def line? (l : Location) : Option Nat :=
  match l.place with
  | .file => none
  | .line n => some n
  | .span n _ _ => some n

def columns? (l : Location) : Option Columns :=
  match l.place with
  | .span _ c _ => some c
  | _ => none

/-- The end on a later line, for a range of several lines. -/
def stop? (l : Location) : Option Position :=
  match l.place with
  | .span _ _ stop => stop
  | _ => none

def endLine? (l : Location) : Option Nat := (l.stop?.map (·.line)).or l.line?

def endColumn? (l : Location) : Option Nat := (l.stop?.map (·.column)).or (l.columns?.map (·.last))

/-- From the start of `a` to the end of `b`. On one line the columns grow; an end on a later line
is recorded beside the columns of the first line. Anything else leaves `a` as it is. -/
def extendTo (a b : Location) : Location :=
  if a.file = b.file then
    match a.place, b.endLine?, b.endColumn? with
    | .span line columns stop, some endLine, some endColumn =>
      if endLine = line ∧ columns.first ≤ endColumn then
        { a with place := .span line (columns.reach endColumn) stop }
      else if line < endLine then
        let last : Position := ⟨endLine, endColumn⟩
        { a with place := .span line columns (some (stop.elim last (·.later last))) }
      else a
    | _, _, _ => a
  else a

def rank (l : Location) : List Nat :=
  match l.place with
  | .file => []
  | .line n => [n]
  | .span n c none => [n, c.first, c.last]
  | .span n c (some p) => [n, c.first, c.last, p.line, p.column]

def order (a b : Location) : Ordering := (compare a.file b.file).then (compare a.rank b.rank)

/-- Same file and same place, whatever source line is kept. -/
def agrees (a b : Location) : Bool := a.file == b.file && a.rank == b.rank

def shown (l : Location) : String :=
  match l.place with
  | .file => l.file
  | .line n => s!"{l.file}:{n}"
  | .span n c _ => s!"{l.file}:{n}:{(UInt32.ofNat c.first + 1).toNat}"

end Location

end MFile
