/-!
Quoted text: a quote inside a quoted run is written twice. Reading keeps what stands outside the
runs as it is, so it also serves command words, where quoted runs and bare text mix.
-/

namespace MFile.Text

/-- Reads on from inside (`true`) or outside (`false`) a quoted run. -/
def dequoteFrom (quote : Char) : Bool → List Char → List Char
  | _, [] => []
  | false, c :: cs =>
    if c = quote then dequoteFrom quote true cs else c :: dequoteFrom quote false cs
  | true, [c] => if c = quote then [] else [c]
  | true, c :: d :: cs =>
    if c = quote then
      if d = quote then quote :: dequoteFrom quote true cs else dequoteFrom quote false (d :: cs)
    else c :: dequoteFrom quote true (d :: cs)

def doubled (quote : Char) (cs : List Char) : List Char :=
  cs.flatMap fun c => if c = quote then [quote, quote] else [c]

def dequote (quote : Char) (raw : String) : String :=
  String.ofList (dequoteFrom quote false raw.toList)

def enquote (quote : Char) (text : String) : String :=
  String.ofList (quote :: (doubled quote text.toList ++ [quote]))

end MFile.Text
