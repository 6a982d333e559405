/-!
Tab stops. A tab advances to the next multiple of the width, counting characters from the last
line break.
-/

namespace MFile.Text

/-- `column` is where the next character stands on its line. -/
def expandTabsFrom (width : Nat) : Nat → List Char → List Char
  | _, [] => []
  | column, c :: cs =>
    if c = '\t' then
      let pad := width - column % width
      List.replicate pad ' ' ++ expandTabsFrom width (column + pad) cs
    else if c = '\n' then c :: expandTabsFrom width 0 cs
    else c :: expandTabsFrom width (column + 1) cs

inductive TabError
  | zeroWidth
deriving DecidableEq, Repr

def TabError.message : TabError → String
  | .zeroWidth => "attempt to calculate the remainder with a divisor of zero"

/-- A width of zero has no tab stops, which only a tab can notice. -/
def expandTabs (width : Nat) (text : String) : Except TabError String :=
  if width = 0 ∧ text.toList.contains '\t' then .error .zeroWidth
  else .ok (String.ofList (expandTabsFrom width 0 text.toList))

end MFile.Text
