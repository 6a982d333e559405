import MFile.Grammar.Expr
import MFile.Text.Bytes

/-!
Statements. Each kind of statement is given the parser of a nested block and leaves its own
number and place to `statement`, which assigns them once all of it is read.
-/

namespace MFile.Grammar.Parse

abbrev BlockParser := Frame → Parse (List Stmt)

def isLoopOpen : List Frame → Bool
  | [] => false
  | .loop :: _ => true
  | .function :: _ => false
  | _ :: frames => isLoopOpen frames

def requireLoop (t : Token) : Parse Unit := do
  unless isLoopOpen (← get).frames do fail t.location (.outsideLoop t.raw)

def blockEnd (opener : Token) : Parse Unit := do
  if (← eatWord "end").isNone then
    failHere (.openBlock opener.raw (opener.location.line?.getD 0))

def ifStmt (block : BlockParser) (opener : Token) : Parse (Site → Stmt) := do
  let guard ← expression
  let branches ← rounds (opener, some guard, []) fun (word, head, branches) => do
    let body ← block .conditional
    let branches := branches ++ [⟨← siteAt word.location, head, body⟩]
    if head.isNone then return .done branches
    match ← eatWord "elseif" with
    | some word => return .again (word, some (← expression), branches)
    | none =>
      match ← eatWord "else" with
      | some word => return .again (word, none, branches)
      | none => return .done branches
  blockEnd opener
  return (.ifElse · branches)

def switchStmt (block : BlockParser) (opener : Token) : Parse (Site → Stmt) := do
  let subject ← expression
  let arm (word : Token) (head : Option Expr) (arms : List Clause) :
      Parse (Round (List Clause) (List Clause)) := do
    let body ← block .switch
    return .again (arms ++ [⟨← siteAt word.location, head, body⟩])
  let arms ← rounds [] fun arms => do
    skipSeparators
    match ← eatWord "case" with
    | some word => arm word (some (← expression)) arms
    | none =>
      match ← eatWord "otherwise" with
      | some word => arm word none arms
      | none => if ← checkWord "end" then return .done arms else unexpected .armOrEnd
  blockEnd opener
  return (.switch · subject arms)

def loopHead : Parse (Name × Expr) := do
  let var ← identifier
  discard (expect .assignment .loopAssignment)
  return (var, ← expression)

def forStmt (block : BlockParser) (opener : Token) : Parse (Site → Stmt) := do
  let parenthesised := (← eat .lparen).isSome
  let (var, range) ← loopHead
  if parenthesised then discard (expect .rparen (.closer .rparen))
  let body ← block .loop
  blockEnd opener
  return (.forLoop · var range body)

def parForStmt (block : BlockParser) (opener : Token) : Parse (Site → Stmt) := do
  let parenthesised := (← eat .lparen).isSome
  let (var, range) ← loopHead
  let workers ←
    if parenthesised then
      let workers ← if (← eat .comma).isSome then some <$> expression else pure none
      discard (expect .rparen (.closer .rparen))
      pure workers
    else pure none
  let body ← block .loop
  blockEnd opener
  return (.parFor · var range workers body)

def whileStmt (block : BlockParser) (opener : Token) : Parse (Site → Stmt) := do
  let guard ← expression
  let body ← block .loop
  blockEnd opener
  return (.whileLoop · guard body)

def namesError : List Token → Bool
  | [] => false
  | [t] => t.kind == .identifier
  | t :: next :: _ => t.kind == .identifier && (next.isSeparator || next.isCloser)

def tryStmt (block : BlockParser) (opener : Token) : Parse (Site → Stmt) := do
  let body ← block .region
  let (catchVar, handler) ←
    if (← eatWord "catch").isSome then
      let catchVar ← if namesError (← get).ahead then some <$> identifier else pure none
      let handler ← block .region
      pure (catchVar, some handler)
    else pure (none, none)
  blockEnd opener
  return (.tryCatch · body catchVar handler)

def spmdStmt (block : BlockParser) (opener : Token) : Parse (Site → Stmt) := do
  let options ← if ← check .lparen then arguments expression .rparen else pure []
  let body ← block .region
  blockEnd opener
  return (.spmd · options body)

def declaredNames : Parse (List Name) := do
  let first ← identifier
  let more ← eatWhile (·.kind == .identifier)
  return first :: (← more.mapM identifierOf)

/-- What follows the first identifier of a statement makes it a command: words, or a path if the
name is not dotted. -/
def followedByText : Bool → List Token → Bool
  | plain, t :: u :: rest =>
    if t.kind == .selection && u.kind == .identifier then followedByText false rest
    else t.kind == .charArray || (plain && t.kind == .directory)
  | plain, [t] => t.kind == .charArray || (plain && t.kind == .directory)
  | _, [] => false

/-- `disp hello world` is `disp('hello', 'world')`, and `import a.b.*` imports. -/
def command : Parse (List Stmt) := do
  let head ← dottedName
  let words ← eatWhile fun t => t.kind == .charArray || t.kind == .directory
  let stmts ←
    if head.identifier? = some "import" then
      words.mapM fun word => do
        let chain := (Text.pieces '.' word.value.toList).map String.ofList
        return Stmt.importNames (← siteAt word.location) chain
    else
      let args ← words.mapM fun word => do
        return Expr.charArray (← siteAt word.location) word.value
      let start := head.site.location
      let call := Name.reference (← siteFrom start) head args
      pure [.naked (← siteFrom start) (.name call)]
  endStatement
  return stmts

def notAssignable {α : Type} (e : Expr) : Parse α :=
  fail e.site.location (.notAssignable e.kindName)

def assignableName (e : Expr) : Parse Name := do
  match e.name? with
  | some name => return name
  | none => notAssignable e

def isPlaceholder : Expr → Bool
  | .name (.identifier _ text) => text == "~"
  | _ => false

def hasPlaceholder : Expr → Bool
  | .matrix _ rows => rows.any (·.items.any isPlaceholder)
  | _ => false

def expressionStmt : Parse (Site → Stmt) := do
  let bracketed ← check .lbracket
  modify fun st => { st with placeholders := bracketed }
  let lhs ← expression
  modify fun st => { st with placeholders := false }
  if (← eat .assignment).isNone then
    if hasPlaceholder lhs then fail lhs.site.location .strayPlaceholder
    return (.naked · lhs)
  match lhs with
  | .matrix _ [row] =>
    let names ← row.items.mapM assignableName
    let rhs ← expression
    return (.multiAssign · names rhs)
  | lhs =>
    let name ← assignableName lhs
    let rhs ← expression
    return (.assign · name rhs)

def keywordStmt (block : BlockParser) (t : Token) : Parse (Site → Stmt) := do
  let opened (p : BlockParser → Token → Parse (Site → Stmt)) : Parse (Site → Stmt) := do
    advance
    p block t
  match t.raw with
  | "if" => opened ifStmt
  | "switch" => opened switchStmt
  | "for" => opened forStmt
  | "parfor" => opened parForStmt
  | "while" => opened whileStmt
  | "try" => opened tryStmt
  | "spmd" => opened spmdStmt
  | "global" =>
    advance
    let names ← declaredNames
    return (.global · names)
  | "persistent" =>
    advance
    let names ← declaredNames
    return (.persistent · names)
  | "break" =>
    advance
    requireLoop t
    return .breakLoop
  | "continue" =>
    advance
    requireLoop t
    return .continueLoop
  | "return" =>
    advance
    return .returnCall
  | word => fail t.location (.strayKeyword word)

/-- The statement that begins with `t`; an import of several names is several statements. -/
def statement (block : BlockParser) (t : Token) : Parse (List Stmt) := do
  if t.kind = .identifier ∧ followedByText true ((← get).ahead.drop 1) then command
  else
    let make ←
      match t.kind with
      | .keyword => keywordStmt block t
      | .bang =>
        advance
        pure (.shell · t.value)
      | _ => expressionStmt
    let stmt := make (← siteFrom t.location)
    endStatement
    return [stmt]

/-- Statements up to the end of the file, a word that closes the block around them, or a
`function` where one may stand. -/
def statementList (block : BlockParser) : Parse (List Stmt) :=
  rounds [] fun stmts => do
    skipSeparators
    match ← current? with
    | none => return .done stmts
    | some t =>
      if t.isCloser then return .done stmts
      else if t.isWord "function" then
        match (← get).frames with
        | [] | .function :: _ => return .done stmts
        | frame :: _ => fail t.location (.functionInside frame)
      else if t.isWord "classdef" then fail t.location .lateClass
      else return .again (stmts ++ (← statement block t))

def statementsWithin : Nat → Parse (List Stmt)
  | 0 => stalled
  | fuel + 1 => statementList fun frame => inFrame frame (statementsWithin fuel)

def statements : Parse (List Stmt) := do statementsWithin ((← get).ahead.length + 1)

end MFile.Grammar.Parse
