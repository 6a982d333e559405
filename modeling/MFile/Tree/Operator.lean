/-! Operators and their spellings. -/

namespace MFile

inductive UnaryOp
  | plus
  | minus
  | not
  | conjugateTranspose
  | transpose
deriving DecidableEq, Repr

namespace UnaryOp

def name : UnaryOp → String
  | plus => "Plus"
  | minus => "Minus"
  | not => "Not"
  | conjugateTranspose => "ConjugateTranspose"
  | transpose => "Transpose"

def symbol : UnaryOp → String
  | plus => "+"
  | minus => "-"
  | not => "~"
  | conjugateTranspose => "'"
  | transpose => ".'"

def followsOperand : UnaryOp → Bool
  | conjugateTranspose | transpose => true
  | _ => false

/-- The sign before an operand; `!` is another spelling of `~`. -/
def ofSign (symbol : String) : UnaryOp :=
  match symbol with
  | "+" => plus
  | "-" => minus
  | _ => not

def ofTranspose (symbol : String) : UnaryOp :=
  if symbol = "'" then conjugateTranspose else transpose

end UnaryOp

inductive BinaryOp
  | power
  | elemPower
  | mul
  | elemMul
  | div
  | elemDiv
  | leftDiv
  | elemLeftDiv
  | add
  | sub
  | eq
  | ne
  | lt
  | le
  | gt
  | ge
  | elemAnd
  | elemOr
  | shortAnd
  | shortOr
deriving DecidableEq, Repr

namespace BinaryOp

def all : List BinaryOp :=
  [power, elemPower, mul, elemMul, div, elemDiv, leftDiv, elemLeftDiv, add, sub, eq, ne, lt, le,
    gt, ge, elemAnd, elemOr, shortAnd, shortOr]

def name : BinaryOp → String
  | power => "Power"
  | elemPower => "ElemPower"
  | mul => "Mul"
  | elemMul => "ElemMul"
  | div => "Div"
  | elemDiv => "ElemDiv"
  | leftDiv => "LeftDiv"
  | elemLeftDiv => "ElemLeftDiv"
  | add => "Add"
  | sub => "Sub"
  | eq => "Eq"
  | ne => "Ne"
  | lt => "Lt"
  | le => "Le"
  | gt => "Gt"
  | ge => "Ge"
  | elemAnd => "ElemAnd"
  | elemOr => "ElemOr"
  | shortAnd => "ShortAnd"
  | shortOr => "ShortOr"

def symbol : BinaryOp → String
  | power => "^"
  | elemPower => ".^"
  | mul => "*"
  | elemMul => ".*"
  | div => "/"
  | elemDiv => "./"
  | leftDiv => "\\"
  | elemLeftDiv => ".\\"
  | add => "+"
  | sub => "-"
  | eq => "=="
  | ne => "~="
  | lt => "<"
  | le => "<="
  | gt => ">"
  | ge => ">="
  | elemAnd => "&"
  | elemOr => "|"
  | shortAnd => "&&"
  | shortOr => "||"

/-- The operator that the text spells; `!=` is another spelling of `~=`. -/
def ofSymbol? (text : String) : Option BinaryOp :=
  if text = "!=" then some ne else all.find? (·.symbol == text)

theorem ofSymbol?_symbol (op : BinaryOp) : ofSymbol? op.symbol = some op := by cases op <;> rfl

end BinaryOp

end MFile
