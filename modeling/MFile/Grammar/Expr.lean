import MFile.Grammar.Name

/-!
Expressions, one function a level of precedence, loosest first:

  12 `||`   11 `&&`   10 `|`   9 `&`   8 comparisons   7 ranges   6 sums   5 products
  4 signs   3 a power of a signed operand   2 transposes and powers   1 operands

Binary levels associate to the left and ranges do not associate. Each level is given the parser
of a whole expression, for the brackets below it, and `expression` closes the circle: every
bracket takes a token, so the tokens ahead bound the depth.
-/

namespace MFile.Grammar.Parse

def binary (op : Token) (lhs rhs : Expr) : Parse Expr := do
  match BinaryOp.ofSymbol? op.raw with
  | some symbol =>
    return .binary (← siteBetween lhs.site.location rhs.site.location) symbol lhs rhs
  | none => throw (.internal op.location (.notBinary op.raw))

def signed (op : Token) (operand : Expr) : Parse Expr :=
  return .unary (← siteBetween op.location operand.site.location) (.ofSign op.raw) operand

def transposed (op : Token) (operand : Expr) : Parse Expr :=
  return .unary (← siteBetween operand.site.location op.location) (.ofTranspose op.raw) operand

def allSigned : List Token → Expr → Parse Expr
  | [], operand => return operand
  | op :: ops, operand => do signed op (← allSigned ops operand)

def isSign (t : Token) : Bool := t.kind == .operator && ["+", "-", "~", "!"].contains t.raw

def binaryRound (symbols : List String) (operand : Parse Expr) (lhs : Expr) :
    Parse (Round Expr Expr) := do
  match ← eatOperator symbols with
  | some op =>
    let rhs ← operand
    return .again (← binary op lhs rhs)
  | none => return .done lhs

/-- Operands joined by operators among `symbols`, grouped to the left. -/
def binaryLevel (symbols : List String) (operand : Parse Expr) : Parse Expr := do
  rounds (← operand) (binaryRound symbols operand)

def argumentsRound (inner : Parse Expr) (close : Kind) (args : List Expr) :
    Parse (Round (List Expr) (List Expr)) := do
  let args := args ++ [← inner]
  if (← eat close).isSome then return .done args
  else if (← eat .comma).isSome then return .again args
  else unexpected (.closer close)

def argumentsInside (inner : Parse Expr) (close : Kind) : Parse (List Expr) := do
  if (← eat close).isSome then return [] else rounds [] (argumentsRound inner close)

/-- An argument list with its brackets. Inside, `end` and a lone colon are values. -/
def arguments (inner : Parse Expr) (close : Kind) : Parse (List Expr) := do
  advance
  modify fun st => { st with indexDepth := st.indexDepth + 1 }
  let args ← argumentsInside inner close
  modify fun st => { st with indexDepth := st.indexDepth - 1 }
  return args

def suffix? (inner : Parse Expr) (name : Name) : Parse (Option Name) := do
  let start := name.site.location
  match ← peekKind? 0 with
  | some .lparen =>
    let args ← arguments inner .rparen
    return some (.reference (← siteFrom start) name args)
  | some .lbrace =>
    let args ← arguments inner .rbrace
    return some (.cellReference (← siteFrom start) name args)
  | some .selection =>
    advance
    if (← eat .lparen).isSome then
      let field ← outsideIndex inner
      discard (expect .rparen (.closer .rparen))
      return some (.dynamicSelection (← siteFrom start) name field)
    else
      let field ← expect .identifier .identifier
      return some (.selection (← siteFrom start) name field.raw)
  | _ => return none

/-- Superclass references, from the innermost one out. -/
def superclassChain : List Name → Name → Parse Name
  | [], name => return name
  | method :: methods, name => do
    let site ← siteBetween method.site.location name.site.location
    superclassChain methods (.superclass site method name)

/-- The methods so far, the innermost first, and the name that they may be bound to. -/
def methodsRound : List Name × Name → Parse (Round (List Name × Name) (List Name × Name))
  | (methods, last) => do
    if (← check .handle) && (← peekKind? 1) == some .identifier then
      advance
      return .again (last :: methods, ← identifier)
    else return .done (methods, last)

def suffixRound (inner : Parse Expr) (name : Name) : Parse (Round Name Name) := do
  match ← suffix? inner name with
  | some longer => return .again longer
  | none => return .done name

/-- An identifier with its suffixes, behind any methods that `@` binds to it. -/
def name (inner : Parse Expr) : Parse Name := do
  let (methods, last) ← rounds ([], ← identifier) methodsRound
  superclassChain methods (← rounds last (suffixRound inner))

def finishRow (rows : List Row) (items : List Expr) : Parse (List Row) := do
  match items with
  | [] => return rows
  | first :: rest =>
    let last := rest.getLastD first
    return rows ++ [⟨← siteBetween first.site.location last.site.location, items⟩]

def endsElement (close : Kind) : Option Kind → Bool
  | some kind => kind == close || kind.isSeparator
  | none => false

structure RowsSoFar where
  rows : List Row := []
  items : List Expr := []
  afterItem : Bool := false

def rowsRound (inner : Parse Expr) (close : Kind) (placeholders : Bool) (soFar : RowsSoFar) :
    Parse (Round RowsSoFar (List Row)) := do
  match ← current? with
  | none => unexpected (.closer close)
  | some t =>
    if t.kind = close then
      advance
      return .done (← finishRow soFar.rows soFar.items)
    else if t.kind = .semicolon ∨ t.kind = .newline then
      advance
      return .again { rows := ← finishRow soFar.rows soFar.items }
    else if t.kind = .comma then
      advance
      return .again { soFar with afterItem := false }
    else if soFar.afterItem then unexpected (.elementEnd close)
    else if placeholders && t.isOperator "~" && endsElement close (← peekKind? 1) then
      advance
      let item ← placeholderOf t
      return .again { soFar with items := soFar.items ++ [.name item], afterItem := true }
    else
      let item ← inner
      return .again { soFar with items := soFar.items ++ [item], afterItem := true }

def rows (inner : Parse Expr) (close : Kind) : Parse (List Row × Location) := do
  let start ← here
  advance
  let placeholders := (← get).placeholders
  modify fun st => { st with placeholders := false }
  let rows ← rounds {} (rowsRound inner close placeholders)
  return (rows, ← spanFrom start)

/-- `@name`, or `@(params) body`. A body is an ordinary expression, not an index. -/
def handle (inner : Parse Expr) (mark : Token) : Parse Expr := do
  if (← eat .lparen).isSome then
    let params ← parameters
    let body ← outsideIndex inner
    return .lambda (← siteBetween mark.location body.site.location) params body
  else
    let name ← dottedName
    return .functionHandle (← siteBetween mark.location name.site.location) name

def closesArgument : Option Kind → Bool
  | some .comma | some .rparen | some .rbrace => true
  | _ => false

def atom? (inIndex : Bool) (t : Token) (next : Option Kind) : Option (Site → Expr) :=
  match t.kind with
  | .number => some (.number · t.raw)
  | .charArray => some (.charArray · t.value)
  | .string => some (.string · t.value)
  | .keyword => if t.raw = "end" ∧ inIndex then some .last else none
  | .colon => if inIndex && closesArgument next then some .reshape else none
  | _ => none

def compound (inner : Parse Expr) (t : Token) : Parse Expr := do
  match t.kind with
  | .identifier => return .name (← name inner)
  | .lparen =>
    advance
    let expr ← inner
    discard (expect .rparen (.closer .rparen))
    return expr
  | .lbracket =>
    let (rows, place) ← rows inner .rbracket
    return .matrix (← siteAt place) rows
  | .lbrace =>
    let (rows, place) ← rows inner .rbrace
    return .cell (← siteAt place) rows
  | .handle =>
    advance
    handle inner t
  | .metaclass =>
    advance
    let name ← dottedName
    return .metaclass (← siteBetween t.location name.site.location) name
  | _ => unexpected .expression

def operand (inner : Parse Expr) : Parse Expr := do
  match ← current? with
  | none => unexpected .expression
  | some t =>
    match atom? (0 < (← get).indexDepth) t (← peekKind? 1) with
    | some make =>
      advance
      return make (← siteAt t.location)
    | none => compound inner t

/-- The right side of a power: its signs bind before the power does. -/
def powerOperand (inner : Parse Expr) : Parse Expr := do
  let signs ← eatWhile isSign
  allSigned signs (← operand inner)

def powersRound (inner : Parse Expr) (expr : Expr) : Parse (Round Expr Expr) := do
  match ← eatOperator ["'", ".'"] with
  | some op => return .again (← transposed op expr)
  | none =>
    match ← eatOperator ["^", ".^"] with
    | some op =>
      let rhs ← powerOperand inner
      return .again (← binary op expr rhs)
    | none => return .done expr

def powers (inner : Parse Expr) : Parse Expr := do
  rounds (← operand inner) (powersRound inner)

def signedPowers (inner : Parse Expr) : Parse Expr := do
  let signs ← eatWhile isSign
  allSigned signs (← powers inner)

def products (inner : Parse Expr) : Parse Expr :=
  binaryLevel ["*", ".*", "/", "./", "\\", ".\\"] (signedPowers inner)

def sums (inner : Parse Expr) : Parse Expr := binaryLevel ["+", "-"] (products inner)

def ranges (inner : Parse Expr) : Parse Expr := do
  let start ← sums inner
  if (← eat .colon).isNone then return start
  let second ← sums inner
  let (stride, stop) ←
    if (← eat .colon).isSome then pure (some second, ← sums inner) else pure (none, second)
  return .range (← siteBetween start.site.location stop.site.location) start stride stop

def comparisons (inner : Parse Expr) : Parse Expr :=
  binaryLevel ["==", "~=", "!=", "<", "<=", ">", ">="] (ranges inner)

def elemAnds (inner : Parse Expr) : Parse Expr := binaryLevel ["&"] (comparisons inner)

def elemOrs (inner : Parse Expr) : Parse Expr := binaryLevel ["|"] (elemAnds inner)

def shortAnds (inner : Parse Expr) : Parse Expr := binaryLevel ["&&"] (elemOrs inner)

def shortOrs (inner : Parse Expr) : Parse Expr := binaryLevel ["||"] (shortAnds inner)

def expressionWithin : Nat → Parse Expr
  | 0 => stalled
  | fuel + 1 => shortOrs (expressionWithin fuel)

def expression : Parse Expr := do expressionWithin ((← get).ahead.length + 1)

end MFile.Grammar.Parse
