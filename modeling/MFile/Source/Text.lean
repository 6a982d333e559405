import MFile.Text.LineIndex
import MFile.Text.Tabs

/-!
The text that is read. Bytes are taken as UTF-8 where they are valid and as Latin-1, one character
a byte, where they are not. A byte order mark is dropped and tabs are expanded before anything
else looks at the text, so offsets and columns refer to what is left.
-/

namespace MFile

/-- What a user may set about reading source text. -/
structure Settings where
  /-- Tab stops are this far apart; without a width, or with zero, tabs stay in the text. -/
  tabWidth : Option Nat := some 4
  /-- Take `!` for negation and `!=` for inequality. -/
  octave : Bool := false
deriving DecidableEq, Repr

inductive Encoding
  | utf8
  | latin1
deriving DecidableEq, Repr

def Encoding.name : Encoding → String
  | .utf8 => "Utf8"
  | .latin1 => "Latin1"

structure SourceText where
  name : String
  text : String
  encoding : Encoding
  tabsExpanded : Bool
  lines : LineIndex
  lines_eq : lines = LineIndex.ofText text

namespace SourceText

def latin1 (bytes : ByteArray) : String :=
  String.ofList (bytes.toList.map fun b => Char.ofNat b.toNat)

def dropMark : List Char → List Char
  | c :: cs => if c = '\ufeff' then cs else c :: cs
  | [] => []

def tabStops (settings : Settings) (cs : List Char) : Option Nat :=
  settings.tabWidth.filter fun width => 0 < width && cs.contains '\t'

def build (name : String) (text : String) (encoding : Encoding) (settings : Settings) :
    SourceText :=
  let plain := dropMark text.toList
  let width := tabStops settings plain
  let expanded := String.ofList (width.elim plain (Text.expandTabsFrom · 0 plain))
  ⟨name, expanded, encoding, width.isSome, LineIndex.ofText expanded, rfl⟩

def ofString (name text : String) (settings : Settings) : SourceText :=
  build name text .utf8 settings

def ofBytes (name : String) (bytes : ByteArray) (settings : Settings) : SourceText :=
  match String.fromUTF8? bytes with
  | some text => build name text .utf8 settings
  | none => build name (latin1 bytes) .latin1 settings

def line? (source : SourceText) (line : Nat) : Option String := source.lines.line? line

def lineCount (source : SourceText) : Nat := source.lines.lineCount

def lineCol (source : SourceText) (offset : Nat) : Nat × Nat := source.lines.lineCol offset

end SourceText

end MFile
