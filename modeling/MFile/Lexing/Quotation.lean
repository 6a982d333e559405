import MFile.Lexing.Number

/-!
Quoted literals. A literal ends at its quote, unless that is doubled, and never leaves its line.
-/

namespace MFile.Lexing.Quotation

def close (quote : Char) : List Char → Except Nat Nat
  | [] => .error 0
  | c :: cs =>
    if Text.isBreak c then .error 0
    else if c = quote then
      match cs with
      | d :: ds => if d = quote then ((close quote ds).map (2 + ·)).mapError (2 + ·) else .ok 1
      | [] => .ok 1
    else ((close quote cs).map (1 + ·)).mapError (1 + ·)

def extent (quote : Char) (unterminated : Fault) (cs : List Char) : Extent :=
  match close quote cs with
  | .ok more => .sound more
  | .error more => .faulty unterminated more

end MFile.Lexing.Quotation
