import MFile.Lexing.Fault

/-!
Numbers. A decimal number has digits, a fraction, an exponent and an imaginary suffix, each but
one of the first two optional; a dot at its end belongs to it unless an operator or another dot
follows. After a lone `0`, `x` and `b` open a hexadecimal or binary number, which may end in an
integer class. A second decimal point makes the whole run malformed.
-/

namespace MFile.Lexing

/-- How a lexeme goes on past its first character: for `more` characters, or up to a fault. -/
inductive Extent
  | sound (more : Nat)
  | faulty (fault : Fault) (more : Nat)
deriving DecidableEq, Repr

def Extent.after (n : Nat) : Extent → Extent
  | sound more => sound (n + more)
  | faulty fault more => faulty fault (n + more)

namespace Number

def integerClasses : List (List Char) :=
  [['u', '8'], ['u', '1', '6'], ['u', '3', '2'], ['u', '6', '4'],
    ['s', '8'], ['s', '1', '6'], ['s', '3', '2'], ['s', '6', '4']]

/-- An integer class is a suffix only where no name goes on after it. -/
def classSuffix (cs : List Char) : Nat :=
  match integerClasses.find? (·.isPrefixOf cs) with
  | some word => if Text.startsWithAny Text.isNameChar (cs.drop word.length) then 0 else word.length
  | none => 0

def radix? : List Char → Option Nat
  | [] => none
  | c :: cs =>
    let digits :=
      if c = 'x' ∨ c = 'X' then Text.run Text.isHexDigit cs
      else if c = 'b' ∨ c = 'B' then Text.run Text.isBinaryDigit cs
      else 0
    if digits = 0 then none else some (1 + digits + classSuffix (cs.drop digits))

def fraction : List Char → Nat
  | '.' :: c :: cs =>
    if c.isDigit then 2 + Text.run Char.isDigit cs
    else if ['*', '/', '\\', '^', '\'', '.'].contains c then 0
    else 1
  | ['.'] => 1
  | _ => 0

def exponent : List Char → Nat
  | c :: cs =>
    if ['e', 'E', 'd', 'D'].contains c then
      let sign := if Text.startsWithAny (fun s => s == '+' || s == '-') cs then 1 else 0
      let digits := Text.run Char.isDigit (cs.drop sign)
      if digits = 0 then 0 else 1 + sign + digits
    else 0
  | [] => 0

def imaginary : List Char → Nat
  | c :: cs =>
    if ['i', 'j', 'I', 'J'].contains c && !Text.startsWithAny Text.isNameChar cs then 1 else 0
  | [] => 0

def excess : List Char → Nat
  | '.' :: c :: cs => if c.isDigit then 2 + Text.run Char.isDigit cs else 0
  | _ => 0

def tail (cs : List Char) : Extent :=
  let power := exponent cs
  let sound := power + imaginary (cs.drop power)
  match excess (cs.drop sound) with
  | 0 => .sound sound
  | extra => .faulty .malformedNumber (sound + extra)

def afterDigit (first : Char) (cs : List Char) : Extent :=
  let digits := Text.run Char.isDigit cs
  let decimal :=
    let point := fraction (cs.drop digits)
    (tail (cs.drop (digits + point))).after (digits + point)
  if first = '0' ∧ digits = 0 then (radix? cs).elim decimal .sound else decimal

def afterDot (cs : List Char) : Extent :=
  let digits := Text.run Char.isDigit cs
  (tail (cs.drop digits)).after digits

end Number

end MFile.Lexing
