import MFile.Grammar.Class
import MFile.Proofs.Grammar.Runs

/-!
The rounds of the longer repetitions, and statements without the separator that ends them, each
under a name of its own.
-/

namespace MFile.Grammar.Parse

variable {α β : Type} {block : BlockParser}

theorem bind_of_ite {c : Prop} [Decidable c] (x y : Parse α) (f : α → Parse β) :
    (if c then x else y) >>= f = if c then x >>= f else y >>= f := by
  split <;> rfl

def commandHead : Parse (List Stmt) := do
  let head ← dottedName
  let words ← eatWhile fun t => t.kind == .charArray || t.kind == .directory
  if head.identifier? = some "import" then
    words.mapM fun word => do
      let chain := (Text.pieces '.' word.value.toList).map String.ofList
      return Stmt.importNames (← siteAt word.location) chain
  else
    let args ← words.mapM fun word => do
      return Expr.charArray (← siteAt word.location) word.value
    let start := head.site.location
    let call := Name.reference (← siteFrom start) head args
    pure [.naked (← siteFrom start) (.name call)]

theorem command_eq : command = do
    let stmts ← commandHead
    endStatement
    return stmts := by
  simp only [command, commandHead, bind_assoc, bind_of_ite]

def statementHead (block : BlockParser) (t : Token) : Parse (List Stmt) := do
  if t.kind = .identifier ∧ followedByText true ((← get).ahead.drop 1) then commandHead
  else
    let make ←
      match t.kind with
      | .keyword => keywordStmt block t
      | .bang =>
        advance
        pure (.shell · t.value)
      | _ => expressionStmt
    return [make (← siteFrom t.location)]

theorem statement_eq (t : Token) : statement block t = do
    let stmts ← statementHead block t
    endStatement
    return stmts := by
  rw [statement, statementHead, bind_assoc]
  refine bind_congr fun st => ?_
  split
  · exact command_eq
  · simp only [pure_bind]
    generalize t.kind = kind
    cases kind <;> simp only [bind_assoc, pure_bind]

def statementChoice (block : BlockParser) (stmts : List Stmt) :
    Option Token → Parse (Round (List Stmt) (List Stmt))
  | none => return .done stmts
  | some t => do
    if t.isCloser then return .done stmts
    else if t.isWord "function" then
      match (← get).frames with
      | [] | .function :: _ => return .done stmts
      | frame :: _ => fail t.location (.functionInside frame)
    else if t.isWord "classdef" then fail t.location .lateClass
    else return .again (stmts ++ (← statement block t))

def statementRound (block : BlockParser) (stmts : List Stmt) :
    Parse (Round (List Stmt) (List Stmt)) := do
  skipSeparators
  statementChoice block stmts (← current?)

theorem statementList_eq : statementList block = rounds [] (statementRound block) := by
  refine congrArg (rounds []) (funext fun stmts => bind_congr fun _ => bind_congr fun t => ?_)
  cases t <;> rfl

/-! ## Parts that may be left out -/

def optArguments (opener close : Kind) : Parse (List Expr) := do
  if ← check opener then arguments expression close else return []

def optName : Parse (Option Name) := do
  if ← check .identifier then some <$> dottedName else return none

def optValue : Parse (Option Expr) := do
  if (← eat .assignment).isSome then some <$> expression else return none

theorem property_eq : property = do
    let start ← here
    let name ← dottedName
    let dimensions ← optArguments .lparen .rparen
    let className ← optName
    let validators ← optArguments .lbrace .rbrace
    let default ← optValue
    return ⟨← siteFrom start, name, dimensions, className, validators, default⟩ := by
  simp only [property, optArguments, optName, optValue, bind_assoc, pure_bind, bind_of_ite]

/-! ## Attributes -/

def oneAttribute : Parse Attribute := do
  let start ← here
  let negated := (← eatOperator ["~", "!"]).isSome
  let name ← expect .identifier .identifier
  let value ← optValue
  return ⟨← siteFrom start, name.raw, negated, value⟩

def attributesRound (attrs : List Attribute) :
    Parse (Round (List Attribute) (List Attribute)) := do
  if (← eat .rparen).isSome then return .done attrs
  if !attrs.isEmpty then discard (expect .comma (.closer .rparen))
  return .again (attrs ++ [← oneAttribute])

theorem attributes_eq : attributes = advance >>= fun _ => rounds [] attributesRound := by
  rw [attributes]
  refine bind_congr fun _ => congrArg (rounds []) (funext fun attrs => ?_)
  simp only [attributesRound, oneAttribute, optValue, bind_assoc, pure_bind, bind_of_ite]

/-! ## Blocks and functions -/

def blockRound (opener : Token) (addNext : Block → Parse Block) (block : Block) :
    Parse (Round Block Block) := do
  skipSeparators
  if (← eatWord "end").isSome then return .done block
  if ← atEnd then failHere (.openBlock opener.raw (opener.location.line?.getD 0))
  return .again (← addNext block)

theorem block_eq (kind : BlockKind) (opener : Token) (addNext : Block → Parse Block) :
    Parse.block kind opener addNext = do
      let attrs ← optAttributes
      let empty : Block := ⟨← siteAt opener.location, kind, attrs, []⟩
      let filled ← rounds empty (blockRound opener addNext)
      return { filled with site := ⟨filled.site.id, ← spanFrom opener.location⟩ } :=
  rfl

def validationRound (blocks : List Block) : Parse (Round (List Block) (List Block)) := do
  skipSeparators
  match ← eatWord "arguments" with
  | some opener => return .again (blocks ++ [← Parse.block .arguments opener addProperty])
  | none => return .done blocks

theorem validationBlocks_eq : validationBlocks = rounds [] validationRound := rfl

def outputsRound (names : List Name) : Parse (Round (List Name) (List Name)) := do
  match ← peekKind? 0 with
  | some .rbracket =>
    advance
    return .done names
  | some .comma =>
    advance
    return .again names
  | some .identifier => return .again (names ++ [← identifier])
  | _ => unexpected .identifier

theorem outputs_eq : outputs = rounds [] outputsRound := rfl

def localRound (run : FunctionRun) : Parse (Round FunctionRun FunctionRun) := do
  skipSeparators
  match ← eatWord "function" with
  | some opener => return .again (← function run opener)
  | none =>
    match ← current? with
    | none => return .done run
    | some t =>
      if t.isCloser then fail t.location (.strayCloser t.raw) else failHere .afterFunctions

theorem localFunctions_eq : localFunctions = do return (← rounds {} localRound).resolve := rfl

theorem localRound_end (run : FunctionRun) {st mid : State} (hskip : skipSeparators st = .ok () mid)
    (h : mid.ahead = []) : localRound run st = .ok (.done run) mid := by
  refine (bind_run hskip _).trans ((bind_run (eatIf_skip (by simp [h])) _).trans
    ((bind_run (current?_run mid) _).trans ?_))
  rw [h]
  rfl

/-! ## Classes -/

theorem addEnumerator_eq (block : Block) : addEnumerator block = (do
    let start ← here
    let name ← identifier
    let args ← optArguments .lparen .rparen
    addStatement start block (.enumerator ⟨← siteFrom start, name, args⟩)) := by
  simp only [addEnumerator, optArguments, bind_assoc, bind_of_ite]

def superclassRound (names : List Name) : Parse (Round (List Name) (List Name)) := do
  if (← eatOperator ["&"]).isSome then return .again (names ++ [← dottedName])
  else return .done names

theorem superclasses_eq : superclasses = (do
    if (← eatOperator ["<"]).isNone then return []
    rounds [← dottedName] superclassRound) :=
  rfl

def classRound (opener : Token) (blocks : List Block) :
    Parse (Round (List Block) (List Block)) := do
  skipSeparators
  if (← eatWord "end").isSome then
    endStatement
    return .done blocks
  match ← current? with
  | none => failHere (.openBlock opener.raw (opener.location.line?.getD 0))
  | some t =>
    match classBlock? t with
    | some kind =>
      advance
      return .again (blocks ++ [← Parse.block kind t (addNext kind)])
    | none => failHere .classItem

theorem classBlocks_eq (opener : Token) : classBlocks opener = rounds [] (classRound opener) := rfl

end MFile.Grammar.Parse
